import Nodal.Lifecycle.Recalled

/-!
# An undo that failed is not forgotten

The contract of the processes that share an operation that rolls back, where any of its undos may
fail. Whoever is inside the operation counts on nobody else touching it, and owes what `Owes` says of
each of its effects. The pass over the steps stops at the first undo that fails; a process that is
stopped there closes the row as `failed`, and `Fair` is what a history has to grant for that not to
happen while something is left to undo.

`reported_until_undone` is the result about whole histories, and `failed_undo_is_forgotten` the
history in which the row is closed.
-/

set_option autoImplicit false

namespace Nodal.Lifecycle

open Nodal.Foundation Nodal.Foundation.Attempt

/-! ### The contract -/

/-- Nobody else touches the operation: the process is inside it, or is the one that will start it. -/
def Holds (first i : Process) (v : View) : Prop :=
  i ∈ insiders v.log ∨ i = first ∧ v.row = none

/-- What a process counts on and what it owes. -/
def recallContract (id : OperationId) (plan : Plan) (first : Process) :
    Contract Process World Effect Effect.Choice where
  inv w := Recalled id plan w
  rely i w w' := (Holds first i (w.view id) → w'.view id = w.view id) ∧
    own i (w'.view id).log = own i (w.view id).log ∧
    ((w.view id).row ≠ none → (w'.view id).row ≠ none)
  rely_refl _ _ := ⟨fun _ ↦ rfl, rfl, fun h ↦ h⟩
  rely_trans _ _ _ _ h h' := by
    refine ⟨fun hholds ↦ ?_, h'.2.1.trans h.2.1, fun hrow ↦ h'.2.2 (h.2.2 hrow)⟩
    have hsame := h.1 hholds
    exact (h'.1 (hsame ▸ hholds)).trans hsame
  assume i effect choice w := Fair id plan i effect choice w
  pre i effect w := About id effect → Owes plan first i effect (w.view id)

/-- What a process still does keeps the contract and ends in `Q`. -/
abbrev SafeRecall {β : Type} (id : OperationId) (plan : Plan) (first i : Process)
    (Q : β → World → Prop) (p : Program Effect Effect.Answer β) (w : World) : Prop :=
  Safe machine (recallContract id plan first) i Q p w

section Rules

variable {id : OperationId} {plan : Plan} {first i : Process} {w : World} {v : View} {β : Type}

theorem safeRecall_done {value : β} : SafeRecall id plan first i Anything (.done value) w :=
  fun _ _ _ ↦ trivial

/-- An effect of a process that holds the operation. -/
theorem safeRecall_perform {effect : Effect} {Q : β → World → Prop}
    {next : effect.Answer → Program Effect Effect.Answer β} (hholds : Holds first i (w.view id))
    (howes : Owes plan first i effect (w.view id))
    (hnext : ∀ t choice, t.view id = w.view id → Recalled id plan t →
      Fair id plan i effect choice t →
      SafeRecall id plan first i Q (next (perform i effect choice t).1)
        (perform i effect choice t).2) :
    SafeRecall id plan first i Q (.perform effect next) w := by
  intro t hst ht
  have hview := hst.1 hholds
  exact ⟨fun _ ↦ hview.symm ▸ howes, fun choice hchoice ↦ hnext t choice hview ht hchoice⟩

theorem safeRecall_close {kind : String} {state : State} (hin : i ∈ insiders (w.view id).log)
    (howes : Owes plan first i (.finish id state) (w.view id)) :
    SafeRecall id plan first i Anything (close id kind state).run w := by
  refine safeRecall_perform (.inl hin) howes fun t choice _ _ _ ↦ ?_
  generalize perform i (.finish id state) choice t = answered
  obtain ⟨_ | _, u⟩ := answered
  · exact safeRecall_done
  · exact safeRecall_done

/-! ### The pass over the steps -/

/-- A pass that has `remaining` left to look at, of what it read as `acted`. -/
structure Withdrawing (i : Process) (acted : List StepRecord) (remaining : List (Step × ℕ))
    (v : View) : Prop where
  inside : i ∈ insiders v.log
  noted : ∀ position, ¬Undid i position v
  running : v.state = some .running
  back : Back acted remaining v
  ahead : ∀ record ∈ acted, (∃ step, (step, record.position) ∈ remaining) →
    standing v.log record.position ≠ some .undone

/-- What a pass ends with: every step that was started stands undone, or one is left. -/
def Withdrawn (i : Process) : Except Error Undone → View → Prop
  | .ok (.all _), v => i ∈ insiders v.log ∧ (∀ position, ¬Undid i position v) ∧
      ∀ position, Started v.log position → standing v.log position = some .undone
  | .ok (.stopped _ _), v => i ∈ insiders v.log ∧ (∀ position, ¬Undid i position v) ∧ Outstanding v
  | .error _, _ => False

variable {acted : List StepRecord} {remaining : List (Step × ℕ)}

/-- The undo of a step is begun. -/
theorem Withdrawing.undoing {position : ℕ} (h : Withdrawing i acted remaining v) :
    Withdrawing i acted remaining (v.note i (.acted position .undoing)) := by
  refine ⟨h.inside, fun other hundid ↦ ?_, h.running, h.back.beside ?_, fun record hrecord hmem ↦ ?_⟩
  · cases hundid
  · refine .of_note (by simp) fun other deed hevent hstands ↦ ?_
    cases hevent
    cases hstands
  · rw [View.note_log, standing_of_deedAt]
    · exact h.ahead record hrecord hmem
    · by_cases heq : position = record.position <;> simp [Event.deedAt, heq, Option.filter, Deed.stands]

/-- The undo of a step failed: the step is left. -/
theorem Withdrawing.stopped {record : StepRecord} {step : Step} {key why : String}
    (h : Withdrawing i acted ((step, record.position) :: remaining) v) (hrecord : record ∈ acted) :
    Withdrawn i (.ok (.stopped key why)) (v.note i (.acted record.position .undoFailed)) := by
  refine ⟨h.inside, fun other hundid ↦ (nomatch hundid), record.position, ?_, ?_⟩
  · exact (started_of_plain (by simp)).mpr (h.back.acted record hrecord)
  · rw [View.note_log, standing_of_deedAt (by simp [Event.deedAt, Option.filter, Deed.stands])]
    exact h.ahead record hrecord ⟨step, List.mem_cons_self⟩

/-- The undo of a step succeeded and is written down. -/
theorem Withdrawing.undone {record : StepRecord} {step : Step} {mark : StepRecord}
    (h : Withdrawing i acted ((step, record.position) :: remaining) v) (hmark : mark.state = .undone)
    (hbelow : ∀ entry ∈ remaining, entry.2 < record.position) :
    Withdrawing i acted remaining
      (((v.note i (.acted record.position .undone)).markStep mark).note i (.marked mark)) := by
  have hundone : standing (v.note i (.acted record.position .undone)).log record.position =
      some .undone := standing_acted rfl
  have hbeside : Beside v (v.note i (.acted record.position .undone)) := by
    refine .of_note (by simp) fun other deed hevent _ ↦ ?_
    cases hevent
    rfl
  have hmarked : Beside (v.note i (.acted record.position .undone))
      (((v.note i (.acted record.position .undone)).markStep mark).note i (.marked mark)) := by
    have hsame : Beside (v.note i (.acted record.position .undone))
        ((v.note i (.acted record.position .undone)).markStep mark) :=
      ⟨fun _ ↦ .rfl, fun _ ↦ id, .inl rfl⟩
    refine hsame.trans (.of_note (fun mark' hevent ↦ ?_) fun _ _ hevent ↦ by cases hevent)
    cases hevent
    simp [hmark]
  refine ⟨h.inside, fun other hundid ↦ (nomatch hundid), h.running,
    ((h.back.beside hbeside).beside hmarked).tail fun _ ↦ hmarked.undone _ hundone, ?_⟩
  intro other hother ⟨step', hmem⟩
  have hne : record.position ≠ other.position := (hbelow _ hmem).ne'
  rw [View.note_log, standing_of_deedAt rfl, View.markStep_log, View.note_log,
    standing_acted_of_ne hne]
  exact h.ahead other hother ⟨step', List.mem_cons_of_mem _ hmem⟩

/-- A step the journal has as undone is passed over. -/
theorem Withdrawing.tail {step : Step} {position : ℕ}
    (h : Withdrawing i acted ((step, position) :: remaining) v)
    (hundone : Started v.log position → standing v.log position = some .undone) :
    Withdrawing i acted remaining v :=
  ⟨h.inside, h.noted, h.running, h.back.tail hundone, fun record hrecord ⟨step', hmem⟩ ↦
    h.ahead record hrecord ⟨step', List.mem_cons_of_mem _ hmem⟩⟩

/-- The loop of a pass. -/
theorem safeRecall_undoEach {undone : List String} (hsorted : remaining.Pairwise fun a b ↦ b.2 < a.2)
    (hpass : Withdrawing i acted remaining (w.view id))
    (hbelow : Below remaining (undoings i (w.view id).log)) :
    SafeRecall id plan first i (fun result t ↦ Withdrawn i result (t.view id))
      (undoEach id acted remaining undone).run w := by
  induction remaining generalizing undone w with
  | nil =>
    intro t hst _
    rw [hst.1 (.inl hpass.inside)]
    refine ⟨hpass.inside, hpass.noted, fun position hstarted ↦ ?_⟩
    rcases hpass.back.ahead position hstarted with hundone | ⟨_, _, hmem⟩
    · exact hundone
    · cases hmem
  | cons entry remaining ih =>
    obtain ⟨step, position⟩ := entry
    obtain ⟨hhead, htail⟩ := List.pairwise_cons.mp hsorted
    unfold undoEach
    split
    · rename_i hany
      obtain ⟨record, hrecord, hposition⟩ := List.any_eq_true.mp hany
      obtain rfl : record.position = position := of_decide_eq_true hposition
      have hstarted := hpass.back.acted record hrecord
      -- The undo is begun.
      refine safeRecall_perform (.inl hpass.inside) ⟨hpass.inside, ⟨hstarted, hpass.back.open,
        fun earlier hmem ↦ hbelow earlier hmem _ List.mem_cons_self⟩, hpass.noted,
        hpass.ahead record hrecord ⟨step, List.mem_cons_self⟩⟩ fun t choice hview _ _ ↦ ?_
      have hpass₁ : Withdrawing i acted ((step, record.position) :: remaining)
          ((perform i (.beginUndo id record.position) choice t).2.view id) := by
        rw [perform, view_note_self, hview]
        exact hpass.undoing
      have hbelow₁ : Below remaining (undoings i ((perform i (.beginUndo id record.position) choice
          t).2.view id).log) := by
        rw [perform, view_note_self, View.note_log, undoings_cons, if_pos rfl, hview]
        intro earlier hmem entry hentry
        rcases List.mem_cons.mp hmem with rfl | hmem
        · exact hhead entry hentry
        · exact hbelow earlier hmem entry (List.mem_cons_of_mem _ hentry)
      generalize (perform i (.beginUndo id record.position) choice t).2 = w₁ at *
      -- The undo has ended.
      have hstarted₁ := hpass₁.back.acted record hrecord
      refine safeRecall_perform (.inl hpass₁.inside) ⟨hpass₁.inside,
        ⟨hstarted₁, hpass₁.back.open⟩, hpass₁.noted⟩ fun t choice hview _ _ ↦ ?_
      cases choice with
      | error why =>
        intro u hu _
        have hfailed : (perform i (.endUndo id record.position) (.error why) t).2.view id =
            (w₁.view id).note i (.acted record.position .undoFailed) := by
          rw [perform, view_note_self, hview]
        change Withdrawn i (.ok (.stopped step.key why)) (u.view id)
        have hstopped := @Withdrawing.stopped _ _ _ _ _ step step.key why hpass₁ hrecord
        rw [← hfailed] at hstopped
        rw [hu.1 (.inl hstopped.1)]
        exact hstopped
      | ok output =>
        have hdone : (perform i (.endUndo id record.position) (.ok output) t).2.view id =
            (w₁.view id).note i (.acted record.position .undone) := by
          rw [perform, view_note_self, hview]
        change SafeRecall id plan first i _
          (mark id (record.position, step.key) .undone none >>= fun _ ↦
            undoEach id acted remaining (undone ++ [step.key])).run _
        generalize (perform i (.endUndo id record.position) (.ok output) t).2 = w₂ at *
        -- The undo is written down.
        refine safeRecall_perform (.inl ?_) ?_ fun t choice hview _ _ ↦ ?_
        · rw [hdone]
          exact hpass₁.inside
        · rw [hdone]
          refine ⟨hpass₁.inside, ⟨standing_acted rfl, ?_⟩, fun hstate ↦ absurd rfl hstate, ?_⟩
          · exact (started_of_plain (by simp)).mpr hstarted₁
          · intro position hundid
            cases hundid
            exact ⟨rfl, rfl⟩
        refine ih htail ?_ ?_
        · rw [view_markStep, hview, hdone]
          exact hpass₁.undone rfl hhead
        · rw [view_markStep, View.note_log, undoings_of_plain rfl, View.markStep_log, hview, hdone,
            View.note_log, undoings_of_plain rfl]
          exact hbelow₁
    · rename_i hany
      refine ih htail (hpass.tail fun hstarted ↦ ?_)
        fun earlier hmem entry hentry ↦ hbelow earlier hmem entry (List.mem_cons_of_mem _ hentry)
      rcases hpass.back.ahead position hstarted with hundone | ⟨⟨record, hrecord, hposition⟩, _⟩
      · exact hundone
      · exact absurd (List.any_eq_true.mpr ⟨record, hrecord, decide_eq_true hposition⟩) hany

/-- A pass over the steps. Assumes: the process began no undo of the operation before, and nothing
that was undone is still to be written down. -/
theorem safeRecall_undoSteps (hin : i ∈ insiders (w.view id).log)
    (hrunning : (w.view id).state = some .running)
    (hnoted : ∀ j position, ¬Undid j position (w.view id))
    (hnone : undoings i (w.view id).log = []) :
    SafeRecall id plan first i (fun result t ↦ Withdrawn i result (t.view id))
      (undoSteps id plan).run w := by
  refine safeRecall_perform (.inl hin) ⟨hin, trivial, hnoted i⟩ fun t choice hview hrecalled _ ↦ ?_
  have hrolling := hrecalled.rolling (hview ▸ hrunning)
  refine safeRecall_undoEach (positioned_sorted plan) ?_ ?_
  · refine ⟨?_, ?_, ?_, hrolling.back (.inl (hview ▸ hrunning)), fun record hrecord _ hundone ↦ ?_⟩
    · exact hview ▸ hin
    · exact hview ▸ hnoted i
    · exact hview ▸ hrunning
    · obtain ⟨hvalue, hacted⟩ := List.mem_filter.mp hrecord
      obtain ⟨position, hrow⟩ := Table.mem_values_iff.mp hvalue
      obtain rfl : record.position = position := hrolling.placed position record hrow
      -- What stands undone is in the journal, so the pass did not read it as acted.
      rcases hrecalled.written record.position hundone with ⟨row, hrow', hstate⟩ | ⟨j, _, _, hundid⟩
      · obtain rfl : row = record := Option.some.inj (hrow'.symm.trans hrow)
        rw [hstate] at hacted
        cases hacted
      · exact hnoted j _ (hview ▸ hundid)
  · change Below _ (undoings i (t.view id).log)
    rw [hview, hnone]
    intro earlier hmem
    cases hmem

/-- The row is closed as the pass ended. -/
theorem safeRecall_closeAll {α : Type} {kind : String} {keys : List String} {f : Unit → Run α}
    (h : Withdrawn i (.ok (.all keys)) (w.view id))
    (hf : ∀ t, SafeRecall id plan first i Anything (f ()).run t) :
    SafeRecall id plan first i Anything (close id kind .rolledBack >>= f).run w := by
  obtain ⟨hin, hnot, hundone⟩ := h
  have howes : Owes plan first i (.finish id .rolledBack) (w.view id) := ⟨hin, ⟨rfl, hundone⟩, hnot⟩
  refine safe_attempt_bind ((safeRecall_close hin howes).mono fun result u _ ↦ ?_)
  cases result with
  | ok _ => exact hf u
  | error _ => exact safeRecall_done

theorem safeRecall_closeStopped {α : Type} {kind key why : String} {f : Unit → Run α}
    (h : Withdrawn i (.ok (.stopped key why)) (w.view id))
    (hf : ∀ t, SafeRecall id plan first i Anything (f ()).run t) :
    SafeRecall id plan first i Anything (close id kind .failed >>= f).run w := by
  obtain ⟨hin, hnot, hleft⟩ := h
  have howes : Owes plan first i (.finish id .failed) (w.view id) := ⟨hin, hnot, .inr hleft⟩
  refine safe_attempt_bind ((safeRecall_close hin howes).mono fun result u _ ↦ ?_)
  cases result with
  | ok _ => exact hf u
  | error _ => exact safeRecall_done

/-- A pass, and what follows it. -/
theorem safeRecall_pass {α : Type} {next : Undone → Run α} (hin : i ∈ insiders (w.view id).log)
    (hrunning : (w.view id).state = some .running)
    (hnoted : ∀ j position, ¬Undid j position (w.view id))
    (hnone : undoings i (w.view id).log = [])
    (hnext : ∀ undone t, Withdrawn i (.ok undone) (t.view id) →
      SafeRecall id plan first i Anything (next undone).run t) :
    SafeRecall id plan first i Anything (undoSteps id plan >>= next).run w := by
  refine safe_attempt_bind ((safeRecall_undoSteps hin hrunning hnoted hnone).mono
    fun result t hpassed ↦ ?_)
  cases result with
  | ok undone => exact hnext undone t hpassed
  | error error => exact safeRecall_done

theorem safeRecall_undoApplied (hin : i ∈ insiders (w.view id).log)
    (hrunning : (w.view id).state = some .running)
    (hnoted : ∀ j position, ¬Undid j position (w.view id))
    (hnone : undoings i (w.view id).log = []) :
    SafeRecall id plan first i Anything (undoApplied id plan).run w := by
  refine safeRecall_pass hin hrunning hnoted hnone fun undone t hpassed ↦ ?_
  cases undone with
  | all keys =>
    obtain ⟨hin, hnot, hundone⟩ := hpassed
    exact safeRecall_close hin ⟨hin, ⟨rfl, hundone⟩, hnot⟩
  | stopped key why => exact safeRecall_closeStopped hpassed fun _ ↦ safeRecall_done

theorem safeRecall_rollBack (hin : i ∈ insiders (w.view id).log)
    (hrunning : (w.view id).state = some .running)
    (hnoted : ∀ j position, ¬Undid j position (w.view id))
    (hnone : undoings i (w.view id).log = []) :
    SafeRecall id plan first i Anything (rollBack id plan).run w := by
  refine safeRecall_pass hin hrunning hnoted hnone fun undone t hpassed ↦ ?_
  cases undone with
  | all keys => exact safeRecall_closeAll hpassed fun _ ↦ safeRecall_done
  | stopped key why => exact safeRecall_closeStopped hpassed fun _ ↦ safeRecall_done

/-! ### The process that runs the plan -/

/-- The process is inside the operation and applies the plan, with `rest` left. -/
structure Onward (plan : Plan) (first : Process) (rest : List (Step × ℕ)) (v : View) : Prop where
  inside : first ∈ insiders v.log
  ahead : Ahead plan rest v

variable {rest : List (Step × ℕ)}

theorem Onward.noted (h : Onward plan first rest v) (position : ℕ) : ¬Undid i position v :=
  not_undid_of_noUndo h.ahead.noUndo

theorem Onward.markStep {mark : StepRecord} (h : Onward plan first rest v) :
    Onward plan first rest ((v.markStep mark).note first (.marked mark)) :=
  ⟨h.inside, h.ahead.markStep⟩

/-- A deed of an apply of the step that is next. -/
theorem Onward.deed {step : Step} {position : ℕ} {deed : Deed}
    (h : Onward plan first ((step, position) :: rest) v) (hdeed : deed.isUndo = false) :
    Onward plan first ((step, position) :: rest) (v.note first (.acted position deed)) := by
  refine ⟨h.inside, h.ahead.note (fun _ _ heq ↦ ?_) fun _ _ heq ↦ ?_⟩
  · cases heq
    exact hdeed
  · cases heq
    exact .inr ⟨step, List.mem_cons_self⟩

/-- The step that is next was applied. -/
theorem Onward.applied {step : Step} {position : ℕ}
    (h : Onward plan first ((step, position) :: rest) v) :
    Onward plan first rest (v.note first (.acted position .applied)) := by
  have hdeed := @Onward.deed _ _ _ _ step position .applied h rfl
  exact ⟨h.inside, hdeed.ahead.tail (standing_acted rfl)⟩

theorem Onward.undoApplied (h : Onward plan first rest (w.view id)) :
    SafeRecall id plan first first Anything (undoApplied id plan).run w :=
  safeRecall_undoApplied h.inside h.ahead.running (fun _ ↦ h.noted) (h.ahead.undoings first)

/-- What the loop of the process that runs the plan ends with. -/
def Reached (plan : Plan) (first : Process) {α : Type} : Except Error α → View → Prop
  | .ok _, v => Onward plan first [] v
  | .error _, _ => True

theorem safeRecall_failing {error : Error} {step : ℕ × String} {α : Type}
    (hrecovery : plan.recovery = .rollBack) (h : Onward plan first rest (w.view id)) :
    SafeRecall id plan first first (fun (result : Except Error α) t ↦ Reached plan first result
      (t.view id)) (failedRun id plan step error >>= fun _ ↦ throw error).run w := by
  rw [failedRun, if_neg (by simp [hrecovery])]
  refine safe_attempt_bind (h.undoApplied.mono fun result t _ ↦ ?_)
  cases result with
  | ok _ => exact fun _ _ _ ↦ trivial
  | error _ => exact fun _ _ _ ↦ trivial

/-- The loop of the process that runs the plan. -/
theorem safeRecall_applyFirst {outputs : Outputs} {applied : List String}
    (hrecovery : plan.recovery = .rollBack)
    (hrest : ∀ entry ∈ rest, entry.2 < plan.steps.length)
    (h : Onward plan first rest (w.view id)) :
    SafeRecall id plan first first (fun result t ↦ Reached plan first result (t.view id))
      (applySteps id plan.kind [] (failedRun id plan) rest outputs applied).run w := by
  induction rest generalizing outputs applied w with
  | nil =>
    intro t hst _
    rw [hst.1 (.inl h.inside)]
    exact h
  | cons entry rest ih =>
    obtain ⟨step, position⟩ := entry
    obtain ⟨hposition, hrest⟩ := List.forall_mem_cons.mp hrest
    unfold applySteps
    rw [if_neg List.not_mem_nil]
    -- The step is written down as being attempted.
    refine safeRecall_perform (.inl h.inside) ⟨h.inside, ⟨rfl, h.ahead.running, hposition⟩,
      fun _ ↦ h.ahead.noUndo, fun other hundid ↦ absurd hundid (h.noted other)⟩
      fun t choice hview _ _ ↦ ?_
    have hmarked := @view_markStep t id first ⟨position, step.key, .applying, none⟩ choice
    have h₁ : Onward plan first ((step, position) :: rest)
        ((perform first (.markStep id ⟨position, step.key, .applying, none⟩) choice t).2.view id) := by
      rw [hmarked, hview]
      exact h.markStep
    have hstarted₁ : Started ((perform first (.markStep id ⟨position, step.key, .applying, none⟩)
        choice t).2.view id).log position := by
      rw [hmarked, View.note_log]
      exact started_cons.mpr (.inl ⟨_, rfl, rfl, rfl⟩)
    change SafeRecall id plan first first _ (apply id position >>= _).run
      (perform first (.markStep id ⟨position, step.key, .applying, none⟩) choice t).2
    generalize (perform first (.markStep id ⟨position, step.key, .applying, none⟩) choice t).2 = w₁ at *
    -- The apply is begun.
    refine safeRecall_perform (.inl h₁.inside) ⟨h₁.inside,
      ⟨rfl, h₁.ahead.running, hstarted₁, h₁.ahead.noUndo⟩, h₁.noted⟩ fun t choice hview _ _ ↦ ?_
    have h₂ : Onward plan first ((step, position) :: rest)
        ((perform first (.beginApply id position) choice t).2.view id) := by
      rw [perform, view_note_self, hview]
      exact h₁.deed rfl
    have hstarted₂ : Started ((perform first (.beginApply id position) choice t).2.view id).log
        position := by
      rw [perform, view_note_self, hview]
      exact (started_of_plain (by simp)).mpr hstarted₁
    generalize (perform first (.beginApply id position) choice t).2 = w₂ at *
    -- The apply has ended.
    refine safeRecall_perform (.inl h₂.inside) ⟨h₂.inside,
      ⟨rfl, h₂.ahead.running, hstarted₂, h₂.ahead.noUndo⟩, h₂.noted⟩ fun t choice hview _ _ ↦ ?_
    cases choice with
    | error why =>
      refine safeRecall_failing hrecovery (?_ : Onward plan first ((step, position) :: rest) _)
      rw [perform, view_note_self, hview]
      exact h₂.deed rfl
    | ok output =>
      have h₃ : Onward plan first rest ((perform first (.endApply id position) (.ok output)
          t).2.view id) := by
        rw [perform, view_note_self, hview]
        exact h₂.applied
      have hstarted₃ : Started ((perform first (.endApply id position) (.ok output)
          t).2.view id).log position := by
        rw [perform, view_note_self, hview]
        exact (started_of_plain (by simp)).mpr hstarted₂
      change SafeRecall id plan first first _ (mark id (position, step.key) .applied (some output) >>=
        fun _ ↦ applySteps id plan.kind [] (failedRun id plan) rest
          (outputs.record step.key output) (applied ++ [step.key])).run _
      generalize (perform first (.endApply id position) (.ok output) t).2 = w₃ at *
      -- The step is written down as applied.
      refine safeRecall_perform (.inl h₃.inside) ⟨h₃.inside, ⟨rfl, h₃.ahead.running, hstarted₃⟩,
        fun _ ↦ h₃.ahead.noUndo, fun other hundid ↦ absurd hundid (h₃.noted other)⟩
        fun t choice hview _ _ ↦ ?_
      refine ih hrest ?_
      rw [view_markStep, hview]
      exact h₃.markStep

theorem safeRecall_runEnding {outputs : Outputs} {recorded : Option Reference}
    (h : Onward plan first [] (w.view id)) :
    SafeRecall id plan first first Anything
      (((commit id plan outputs).outcome >>= fun committed ↦
        match committed with
        | .ok output => pure { id, record := recorded, outputs, committed := output }
        | .error source => undoApplied id plan >>= fun _ ↦ throw source : Run Done)).run w := by
  have happlied : ∀ position < plan.steps.length, standing (w.view id).log position = some .applied :=
    fun position hlt ↦ (h.ahead.applied position hlt).resolve_right fun ⟨_, hmem⟩ ↦ by cases hmem
  have hcommit : SafeRecall id plan first first
      (fun result t ↦ ∀ error, result = .error error → Onward plan first [] (t.view id))
      (commit id plan outputs).run w := by
    refine safeRecall_perform (.inl h.inside) ⟨h.inside,
      ⟨rfl, h.ahead.running, h.ahead.noUndo, happlied⟩, h.noted⟩ fun t choice hview _ _ ↦ ?_
    rw [← hview] at h
    cases choice with
    | error why =>
      intro u hu _ _ _
      have hsame : u.view id = t.view id := hu.1 (.inl h.inside)
      rw [hsame]
      exact h
    | ok output =>
      obtain ⟨hanswer, _⟩ := perform_commit_open first plan.kind outputs output h.ahead.running
      rw [hanswer]
      exact fun _ _ _ _ heq ↦ (nomatch heq)
  refine safe_outcome_bind (hcommit.mono fun result t hresult ↦ ?_)
  cases result with
  | ok output => exact safeRecall_done
  | error why =>
    refine safe_attempt_bind ((hresult why rfl).undoApplied.mono fun undone u _ ↦ ?_)
    cases undone with
    | ok _ => exact safeRecall_done
    | error _ => exact safeRecall_done

/-- The record of the home. Assumes: no step was begun. -/
theorem safeRecall_record {Q : Except Error (Except String (Option Reference)) → World → Prop}
    (hin : first ∈ insiders (w.view id).log) (hnot : ∀ position, ¬Undid first position (w.view id))
    (hQ : ∀ recorded t, t.view id = w.view id → Q (.ok recorded) t) :
    SafeRecall id plan first first Q (record plan id).run w := by
  unfold record
  split
  · exact fun t hst _ ↦ hQ (.ok none) t (hst.1 (.inl hin))
  · refine safeRecall_perform (.inl hin) ⟨hin, trivial, hnot⟩ fun t taken hview _ _ ↦ ?_
    have hstays : ∀ {recorded u}, (recallContract id plan first).rely first t u →
        Q (.ok recorded) u := by
      intro recorded u hu
      have hsame : u.view id = t.view id := hu.1 (.inl (hview ▸ hin))
      exact hQ recorded u (hsame.trans hview)
    cases taken with
    | error why => exact fun u hu _ ↦ hstays hu
    | ok taken =>
      cases taken with
      | true => exact fun u hu _ ↦ hstays hu
      | false => exact fun u hu _ ↦ hstays hu

/-- The process that runs the plan. -/
theorem safeRecall_run (hrecovery : plan.recovery = .rollBack) (hrow : (w.view id).row = none) :
    SafeRecall id plan first first Anything (run id plan).run w := by
  refine safeRecall_perform (.inr ⟨rfl, hrow⟩) ⟨rfl, hrow, hrecovery⟩ fun t choice hview hrecalled _ ↦ ?_
  have huntouched : t.view id = ⟨none, ∅, []⟩ := hrecalled.opened (hview ▸ hrow)
  have hstart := @view_start t id first plan choice
  rw [huntouched] at hstart
  have hunstarted : ∀ position, ¬Started ((perform first (.start id plan) choice t).2.view id).log
      position := by
    rw [hstart]
    rintro position ⟨_, _, hmem, _⟩
    cases List.mem_singleton.mp hmem
  have honward : Onward plan first plan.positioned
      ((perform first (.start id plan) choice t).2.view id) := by
    rw [hstart]
    refine ⟨List.mem_singleton.mpr rfl, rfl, noUndo_cons.mpr ⟨by simp, fun _ _ _ hmem ↦ by cases hmem⟩,
      fun position hlt ↦ ?_⟩
    exact .inr ⟨_, Plan.mem_positioned_iff.mpr (List.getElem?_eq_getElem hlt)⟩
  change SafeRecall id plan first first _ (record plan id >>= _).run
    (perform first (.start id plan) choice t).2
  generalize (perform first (.start id plan) choice t).2 = w₁ at honward hunstarted
  refine safe_attempt_bind (safeRecall_record honward.inside honward.noted fun recorded u hu ↦ ?_)
  rw [← hu] at honward hunstarted
  cases recorded with
  | error why =>
    have howes : Owes plan first first (.finish id .failed) (u.view id) :=
      ⟨honward.inside, honward.noted, .inl hunstarted⟩
    refine safe_attempt_bind ((safeRecall_close honward.inside howes).mono fun result s _ ↦ ?_)
    cases result with
    | ok _ => exact safeRecall_done
    | error _ => exact safeRecall_done
  | ok recorded =>
    have hrest : ∀ entry ∈ plan.positioned, entry.2 < plan.steps.length := fun entry hentry ↦
      (List.getElem?_eq_some_iff.mp (Plan.mem_positioned_iff.mp hentry)).1
    refine safe_attempt_bind ((safeRecall_applyFirst hrecovery hrest honward).mono
      fun result s hreached ↦ ?_)
    cases result with
    | ok result => exact safeRecall_runEnding hreached
    | error why => exact safeRecall_done

/-! ### The processes that resolve -/

variable {here : Owner} {rebuilders : List String}

/-- An operation that was found is rolled back, or passed on where no plan is rebuilt for it. -/
theorem safeRecall_takeOver {record : Operation} (hid : record.id = id)
    (hrecovery : record.recovery = .rollBack) (hin : i ∈ insiders (w.view id).log)
    (hrunning : (w.view id).state = some .running)
    (hfound : (w.view id).log.head? = some (i, .found))
    (hnone : undoings i (w.view id).log = []) :
    SafeRecall id plan first i Anything (takeOver record rebuilders).run w := by
  subst hid
  have hnoted : ∀ j position, ¬Undid j position (w.view record.id) := by
    intro j position hundid
    rw [Undid, hfound] at hundid
    cases hundid
  refine safeRecall_perform (.inl hin) ⟨hin, trivial, hnoted i⟩ fun t choice hview _ hchoice ↦ ?_
  simp only [perform]
  split
  · cases choice with
    | error why => exact safeRecall_done
    | ok plan' =>
      obtain rfl : plan' = plan := hchoice rfl plan' rfl
      rw [hrecovery]
      refine safeRecall_rollBack ?_ ?_ ?_ ?_
      · exact hview ▸ hin
      · exact hview ▸ hrunning
      · exact hview ▸ hnoted
      · exact hview ▸ hnone
  · exact safeRecall_done

theorem safeRecall_actOn {record : Operation} (hid : record.id = id)
    (hrecovery : record.recovery = .rollBack) (hrow : (w.view id).row ≠ none)
    (hown : own i (w.view id).log = []) :
    SafeRecall id plan first i Anything (actOn here rebuilders record).run w := by
  unfold actOn Owner.stateFor
  split
  · exact safeRecall_done
  · split
    · exact safeRecall_done
    · subst hid
      intro t hst _
      have hown' : own i (t.view record.id).log = [] := hst.2.1.trans hown
      refine ⟨fun _ ↦ ⟨hst.2.2 hrow, fun position ↦ not_undid_of_own hown'⟩, fun choice hchoice ↦ ?_⟩
      by_cases hgone : t.isRunning i.owner.host record.owner.pid choice = true
      · have hperformed : machine.perform i (.isRunning record.id record.owner.pid) choice t =
            (true, t) := if_pos hgone
        rw [hperformed]
        exact safeRecall_done
      · have hperformed : machine.perform i (.isRunning record.id record.owner.pid) choice t =
            (false, t.note record.id i .found) := if_neg hgone
        rw [hperformed]
        obtain ⟨hrunning, _⟩ := hchoice rfl (by simpa using hgone)
        refine safeRecall_takeOver rfl hrecovery ?_ ?_ ?_ ?_
        · rw [view_note_self]
          exact List.mem_cons_self
        · rw [view_note_self]
          exact hrunning
        · rw [view_note_self]
          rfl
        · rw [view_note_self, View.note_log, undoings_of_plain rfl, undoings, hown']
          rfl

/-- What is done about other operations. -/
theorem safeRecall_elsewhere {other : OperationId} {p : Program Effect Effect.Answer β}
    (huses : p.Uses (About other)) (hother : other ≠ id) (F : World → Prop) (hF : F w)
    (hrely : ∀ s t, (recallContract id plan first).rely i s t → F s → F t)
    (hframe : ∀ s t, t.view id = s.view id → F s → F t) :
    SafeRecall id plan first i (fun _ ↦ F) p w := by
  have hne : ∀ effect, About other effect → effect.about ≠ some id := fun effect habout heq ↦
    hother (Option.some.inj (habout.symm.trans heq))
  refine safe_of_uses huses hF (fun s t hst _ hs ↦ hrely s t hst hs) ?_ ?_ fun _ _ _ ht ↦ ht
  · exact fun effect t habout _ _ hself ↦ absurd hself (hne effect habout)
  · exact fun effect choice t habout _ _ ht ↦
      hframe t _ (view_perform_of_ne (hne effect habout) choice) ht

/-- The row is there, and the process did nothing about the operation yet. -/
def Unmet (id : OperationId) (i : Process) (w : World) : Prop :=
  (w.view id).row ≠ none ∧ own i (w.view id).log = []

theorem safeRecall_resolveEach {rest : List Operation} {resolutions : List Resolution}
    (hids : (rest.map Operation.id).Nodup)
    (hrest : ∀ record ∈ rest, record.id = id → record.recovery = .rollBack ∧ Unmet id i w) :
    SafeRecall id plan first i Anything (resolveEach here rebuilders rest resolutions).run w := by
  induction rest generalizing resolutions w with
  | nil => exact safeRecall_done
  | cons record rest ih =>
    obtain ⟨hnotin, hids⟩ := List.nodup_cons.mp hids
    obtain ⟨hrecord, hrest⟩ := List.forall_mem_cons.mp hrest
    by_cases hid : record.id = id
    · obtain ⟨hrecovery, hrow, hown⟩ := hrecord hid
      refine safe_attempt_bind ((safeRecall_actOn hid hrecovery hrow hown).mono fun action t _ ↦ ?_)
      cases action with
      | error error => exact safeRecall_done
      | ok action =>
        refine ih hids fun other hother hother' ↦ absurd (List.mem_map.mpr ⟨other, hother, ?_⟩) hnotin
        rw [hother', hid]
    · refine safe_attempt_bind ((safeRecall_elsewhere actOn_uses hid
        (fun t ↦ Unmet id i w → Unmet id i t) (fun h ↦ h) ?_ ?_).mono fun action t hunmet ↦ ?_)
      · exact fun s t hst hs h ↦ ⟨hst.2.2 (hs h).1, hst.2.1.trans (hs h).2⟩
      · intro s t hview hs h
        rw [Unmet, hview]
        exact hs h
      · cases action with
        | error error => exact safeRecall_done
        | ok action =>
          exact ih hids fun other hother hother' ↦ (hrest other hother hother').imp_right hunmet

/-- A process that resolves. -/
theorem safeRecall_resolve (hown : own i (w.view id).log = []) :
    SafeRecall id plan first i Anything (resolve here rebuilders).run w := by
  intro t hst ht
  refine ⟨fun habout ↦ (nomatch habout), fun choice _ ↦ ?_⟩
  refine safeRecall_resolveEach (t.journal.unfinished_ordered.imp fun hlt ↦ hlt.ne) ?_
  rintro record hrecord rfl
  obtain ⟨hrow, hstate⟩ := Journal.mem_unfinished_iff.mp hrecord
  have hrunning : (t.view record.id).state = some .running :=
    Option.map_eq_some_iff.mpr ⟨record, hrow, hstate⟩
  exact ⟨(ht.rolling hrunning).recovery record hrow, View.row_ne_none hrunning, hst.2.1.trans hown⟩

end Rules

end Nodal.Lifecycle
