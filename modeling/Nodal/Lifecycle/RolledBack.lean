import Nodal.Lifecycle.KeptOutputs
import Nodal.Lifecycle.RollBack

/-!
# How an operation that rolls back ends

The first process runs a plan whose recovery is a rollback; once it is over, any number of processes
resolve, beside one another, and each may die anywhere. While no undo fails, every step that was
started and none else is undone, each pass in order, and where the first process or a resolver that
took the operation over has returned, the operation is `committed` with every step applied and one
registry write, or `rolled_back` with every started step undone and none.
-/

set_option autoImplicit false

namespace Nodal.Lifecycle

open Nodal.Foundation Nodal.Foundation.Attempt

section First

variable {id : OperationId} {plan : Plan} {first : Process} {w : World} {v : View}
  {rest : List (Step × ℕ)}

/-! ### The process that runs the plan -/

/-- The plan is being applied, with `rest` left. -/
structure Ahead (plan : Plan) (rest : List (Step × ℕ)) (v : View) : Prop where
  running : v.state = some .running
  noUndo : NoUndo v.log
  applied : ∀ position < plan.steps.length,
    standing v.log position = some .applied ∨ ∃ step, (step, position) ∈ rest

/-- An event that is no deed of an undo, and takes no step away that stands applied. -/
theorem Ahead.note {event : Event} (h : Ahead plan rest v)
    (hundo : ∀ position deed, event = .acted position deed → deed.isUndo = false)
    (hahead : ∀ position deed, event = .acted position deed → deed = .applied ∨
      ∃ step, (step, position) ∈ rest) : Ahead plan rest (v.note first event) := by
  refine ⟨h.running, noUndo_cons.mpr ⟨hundo, h.noUndo⟩, fun position hlt ↦ ?_⟩
  rw [View.note_log, standing_cons]
  cases hevent : (event.deedAt position).filter Deed.stands with
  | none => exact h.applied position hlt
  | some deed =>
    obtain ⟨hdeedAt, _⟩ := Option.filter_eq_some_iff.mp hevent
    cases event with
    | acted other deed' =>
      simp only [Event.deedAt] at hdeedAt
      split at hdeedAt
      · rename_i heq
        rcases hahead other deed' rfl with rfl | hrest
        · exact .inl (congrArg some (Option.some.inj hdeedAt).symm)
        · exact .inr (heq ▸ hrest)
      · cases hdeedAt
    | _ => cases hdeedAt

theorem Ahead.markStep {mark : StepRecord} (h : Ahead plan rest v) :
    Ahead plan rest ((v.markStep mark).note first (.marked mark)) :=
  Ahead.note ⟨h.running, h.noUndo, h.applied⟩ (by simp) (by simp)

/-- The step that is next stands applied. -/
theorem Ahead.tail {step : Step} {position : ℕ} (h : Ahead plan ((step, position) :: rest) v)
    (happlied : standing v.log position = some .applied) : Ahead plan rest v := by
  refine ⟨h.running, h.noUndo, fun other hlt ↦ ?_⟩
  by_cases heq : other = position
  · exact .inl (heq ▸ happlied)
  · rcases h.applied other hlt with hother | ⟨step', hmem⟩
    · exact .inl hother
    · rcases List.mem_cons.mp hmem with hhead | hmem
      · exact absurd (Prod.mk.inj hhead).2 heq
      · exact .inr ⟨step', hmem⟩

theorem Ahead.undoings (h : Ahead plan rest v) (i : Process) : undoings i v.log = [] := by
  refine List.filterMap_eq_nil_iff.mpr fun entry hentry ↦ ?_
  obtain ⟨hmem, _⟩ := List.mem_filter.mp hentry
  obtain ⟨process, event⟩ := entry
  cases event with
  | acted position deed =>
    cases deed with
    | undoing => cases h.noUndo process position .undoing hmem
    | _ => rfl
  | _ => rfl

/-- What the loop of the first process ends with. -/
def Ran (id : OperationId) (plan : Plan) (first : Process) {α : Type} (result : Except Error α)
    (w : World) : Prop :=
  match result with
  | .ok _ => Ahead plan [] (w.view id)
  | .error _ => RolledBack id first first w

theorem safeBack_failing {error : Error} {step : ℕ × String} {α : Type} (hrecovery : plan.recovery = .rollBack)
    (hahead : Ahead plan rest (w.view id)) :
    SafeBack id plan first first (@Ran id plan first α)
      (failedRun id plan step error >>= fun _ ↦ throw error).run w := by
  rw [failedRun, if_neg (by simp [hrecovery])]
  refine safe_attempt_bind ((safeBack_undoApplied (fun hne ↦ absurd rfl hne) (.inl hahead.running)
    (hahead.undoings first)).mono fun result t hback ↦ ?_)
  cases result with
  | ok _ => exact fun u hu _ ↦ hback.rely hu
  | error _ => exact fun u hu _ ↦ hback.rely hu

/-- The loop of the first process. -/
theorem safeBack_applyFirst {outputs : Outputs} {applied : List String}
    (hrecovery : plan.recovery = .rollBack)
    (hrest : ∀ entry ∈ rest, entry.2 < plan.steps.length) (hahead : Ahead plan rest (w.view id)) :
    SafeBack id plan first first (Ran id plan first)
      (applySteps id plan.kind [] (failedRun id plan) rest outputs applied).run w := by
  induction rest generalizing outputs applied w with
  | nil =>
    intro t hst _
    change Ahead plan [] (t.view id)
    rw [hst.1 rfl]
    exact hahead
  | cons entry rest ih =>
    obtain ⟨step, position⟩ := entry
    obtain ⟨hposition, hrest⟩ := List.forall_mem_cons.mp hrest
    have hhere : ∃ step', (step', position) ∈ (step, position) :: rest := ⟨step, List.mem_cons_self⟩
    unfold applySteps
    rw [if_neg List.not_mem_nil]
    -- The step is written down as being attempted.
    refine safeBack_first ⟨trivial, hahead.running, hposition⟩ fun t choice hview _ ↦ ?_
    have hahead₁ : Ahead plan ((step, position) :: rest)
        ((perform first (.markStep id ⟨position, step.key, .applying, none⟩) choice t).2.view id) := by
      rw [view_markStep, hview]
      exact hahead.markStep
    have hstarted₁ : Started ((perform first (.markStep id ⟨position, step.key, .applying, none⟩)
        choice t).2.view id).log position := by
      rw [view_markStep, View.note_log]
      exact started_cons.mpr (.inl ⟨_, rfl, rfl, rfl⟩)
    change SafeBack id plan first first _ (apply id position >>= _).run
      (perform first (.markStep id ⟨position, step.key, .applying, none⟩) choice t).2
    generalize (perform first (.markStep id ⟨position, step.key, .applying, none⟩) choice t).2 = w₁ at *
    -- The apply is begun.
    refine safeBack_first ⟨trivial, hahead₁.running, hstarted₁, hahead₁.noUndo⟩
      fun t choice hview _ ↦ ?_
    have hahead₂ : Ahead plan ((step, position) :: rest)
        ((perform first (.beginApply id position) choice t).2.view id) := by
      rw [perform, view_note_self, hview]
      refine hahead₁.note (fun _ _ heq ↦ by cases heq; rfl) fun _ _ heq ↦ ?_
      cases heq
      exact .inr hhere
    have hstarted₂ : Started ((perform first (.beginApply id position) choice t).2.view id).log
        position := by
      rw [perform, view_note_self, hview]
      exact (started_of_plain (by simp)).mpr hstarted₁
    generalize (perform first (.beginApply id position) choice t).2 = w₂ at *
    -- The apply has ended.
    refine safeBack_first ⟨trivial, hahead₂.running, hstarted₂, hahead₂.noUndo⟩
      fun t choice hview _ ↦ ?_
    cases choice with
    | error why =>
      refine safeBack_failing hrecovery (?_ : Ahead plan ((step, position) :: rest) _)
      rw [perform, view_note_self, hview]
      refine hahead₂.note (fun _ _ heq ↦ by cases heq; rfl) fun _ _ heq ↦ ?_
      cases heq
      exact .inr hhere
    | ok output =>
      have hahead₃ : Ahead plan rest ((perform first (.endApply id position) (.ok output)
          t).2.view id) := by
        rw [perform, view_note_self, hview]
        refine (?_ : Ahead plan ((step, position) :: rest) _).tail (standing_acted rfl)
        exact hahead₂.note (fun _ _ heq ↦ by cases heq; rfl) fun _ _ heq ↦ by cases heq; exact .inl rfl
      have hstarted₃ : Started ((perform first (.endApply id position) (.ok output)
          t).2.view id).log position := by
        rw [perform, view_note_self, hview]
        exact (started_of_plain (by simp)).mpr hstarted₂
      change SafeBack id plan first first _ (mark id (position, step.key) .applied (some output) >>=
        fun _ ↦ applySteps id plan.kind [] (failedRun id plan) rest
          (outputs.record step.key output) (applied ++ [step.key])).run _
      generalize (perform first (.endApply id position) (.ok output) t).2 = w₃ at *
      -- The step is written down as applied.
      refine safeBack_first ⟨trivial, hahead₃.running, hstarted₃⟩ fun t choice hview _ ↦ ?_
      refine ih hrest ?_
      rw [view_markStep, hview]
      exact hahead₃.markStep

/-- The operation is over where the process has returned and was the first or took it over. -/
def Ends (id : OperationId) (first i : Process) {α : Type} (_ : α) (w : World) : Prop :=
  i = first ∨ Took i (w.view id) → Settled (w.view id)

theorem safeBack_ended {α : Type} {value : α} (hsettled : Settled (w.view id)) :
    SafeBack id plan first first (Ends id first first) (.done value) w := by
  intro t hst _ _
  rw [hst.1 rfl]
  exact hsettled

theorem safeBack_runEnding {outputs : Outputs} {recorded : Option Reference}
    (hahead : Ahead plan [] (w.view id)) :
    SafeBack id plan first first (Ends id first first)
      (((commit id plan outputs).outcome >>= fun committed ↦
        match committed with
        | .ok output => pure { id, record := recorded, outputs, committed := output }
        | .error source => undoApplied id plan >>= fun _ ↦ throw source : Run Done)).run w := by
  have happlied : ∀ position < plan.steps.length, standing (w.view id).log position = some .applied :=
    fun position hlt ↦ (hahead.applied position hlt).resolve_right fun ⟨_, hmem⟩ ↦ by cases hmem
  have hcommit : SafeBack id plan first first
      (fun result t ↦ match result with
        | .ok _ => Settled (t.view id)
        | .error _ => Ahead plan [] (t.view id)) (commit id plan outputs).run w := by
    refine safeBack_first ⟨trivial, hahead.running, hahead.noUndo, happlied⟩ fun t choice hview _ ↦ ?_
    rw [← hview] at hahead
    cases choice with
    | error why =>
      intro u hu _
      change Ahead plan [] (u.view id)
      rw [hu.1 rfl]
      exact hahead
    | ok output =>
      obtain ⟨hanswer, hcommitted⟩ := perform_commit_open first plan.kind outputs output hahead.running
      rw [hanswer] at hcommitted ⊢
      intro u hu _
      change Settled (u.view id)
      rw [hu.1 rfl]
      refine .inl ((congrArg View.state hcommitted).trans ?_)
      simp [View.move_state, hahead.running]
  refine safe_outcome_bind (hcommit.mono fun result t hresult ↦ ?_)
  cases result with
  | ok output => exact safeBack_ended hresult
  | error why =>
    refine safe_attempt_bind ((safeBack_undoApplied (fun hne ↦ absurd rfl hne)
      (.inl hresult.running) (hresult.undoings first)).mono fun undone u hback ↦ ?_)
    cases undone with
    | ok _ => exact safeBack_ended (.inr hback.2)
    | error _ => exact safeBack_ended (.inr hback.2)

theorem safeBack_record {Q : Except Error (Except String (Option Reference)) → World → Prop}
    (hQ : ∀ recorded t, t.view id = w.view id → Q (.ok (.ok recorded)) t) :
    SafeBack id plan first first Q (record plan id).run w := by
  unfold record
  split
  · exact fun t hst _ ↦ hQ none t (hst.1 rfl)
  · refine safeBack_first trivial fun t taken hview hchoice ↦ ?_
    cases taken with
    | error why => exact absurd rfl (hchoice rfl why)
    | ok taken =>
      cases taken with
      | true => exact fun u hu _ ↦ hQ _ u ((hu.1 rfl).trans hview)
      | false => exact fun u hu _ ↦ hQ _ u ((hu.1 rfl).trans hview)

/-- The process that runs the plan. -/
theorem safeBack_run (hrecovery : plan.recovery = .rollBack) (huntouched : w.view id = ⟨none, ∅, []⟩) :
    SafeBack id plan first first (Ends id first first) (run id plan).run w := by
  refine safeBack_first ⟨trivial, huntouched, hrecovery⟩ fun t choice hview _ ↦ ?_
  have hahead : Ahead plan plan.positioned ((perform first (.start id plan) choice t).2.view id) := by
    rw [view_start, hview, huntouched]
    refine ⟨rfl, noUndo_cons.mpr ⟨by simp, fun _ _ _ hmem ↦ by cases hmem⟩, fun position hlt ↦ ?_⟩
    exact .inr ⟨_, Plan.mem_positioned_iff.mpr (List.getElem?_eq_getElem hlt)⟩
  change SafeBack id plan first first _ (record plan id >>= _).run (perform first (.start id plan) choice t).2
  generalize (perform first (.start id plan) choice t).2 = w₁ at hahead
  refine safe_attempt_bind (safeBack_record fun recorded u hu ↦ ?_)
  rw [← hu] at hahead
  have hrest : ∀ entry ∈ plan.positioned, entry.2 < plan.steps.length := fun entry hentry ↦
    (List.getElem?_eq_some_iff.mp (Plan.mem_positioned_iff.mp hentry)).1
  refine safe_attempt_bind ((safeBack_applyFirst hrecovery hrest hahead).mono fun result s hran ↦ ?_)
  cases result with
  | error why => exact safeBack_ended (.inr hran.2)
  | ok result => exact safeBack_runEnding hran

end First

/-! ### The processes that resolve -/

section Resolvers

variable {id : OperationId} {plan : Plan} {first i : Process} {w w' : World}
  {here : Owner} {rebuilders : List String}

theorem not_took {v : View} (hown : own i v.log = []) : ¬Took i v := by
  intro htook
  rw [took_iff, hown] at htook
  cases htook.1

/-- A resolver goes on to the next operation: this one is over where it took it over. -/
structure Carried (id : OperationId) (first i : Process) (w : World) : Prop where
  entitled : Entitled first i w
  settled : Took i (w.view id) → Settled (w.view id)

theorem Carried.beside (h : Carried id first i w) (hentitled : Entitled first i w')
    (hbeside : Beside (w.view id) (w'.view id))
    (hown : own i (w'.view id).log = own i (w.view id).log) : Carried id first i w' :=
  ⟨hentitled, fun htook ↦ hbeside.settled (h.settled (htook.of_own hown))⟩

theorem Carried.rely (h : Carried id first i w)
    (hrely : (backContract id plan first).rely i w w') : Carried id first i w' := by
  obtain ⟨hentitled, hbeside, hown⟩ := h.entitled.rely hrely
  exact h.beside hentitled hbeside hown

theorem safeBack_carried {α : Type} {value : α} (h : Carried id first i w) :
    SafeBack id plan first i (fun _ ↦ Carried id first i) (.done value) w :=
  fun _ ht _ ↦ h.rely ht

/-- What is done about other operations. -/
theorem safeBack_elsewhere {α : Type} {other : OperationId} {Q : α → World → Prop}
    {p : Program Effect Effect.Answer α} (huses : p.Uses (About other)) (hother : other ≠ id)
    (hentitled : Entitled first i w)
    (hQ : ∀ value t, Entitled first i t → Beside (w.view id) (t.view id) →
      own i (t.view id).log = own i (w.view id).log → Q value t) :
    SafeBack id plan first i Q p w := by
  have hne : ∀ effect, About other effect → effect.about ≠ some id := fun effect habout heq ↦
    hother (Option.some.inj (habout.symm.trans heq))
  refine safe_of_uses (F := fun t ↦ Entitled first i t ∧ Beside (w.view id) (t.view id) ∧
    own i (t.view id).log = own i (w.view id).log) huses ⟨hentitled, .refl _, rfl⟩ ?_ ?_ ?_ ?_
  · rintro s t hst _ ⟨hentitled, hbeside, hown⟩
    obtain ⟨hentitled', hbeside', hown'⟩ := hentitled.rely hst
    exact ⟨hentitled', hbeside.trans hbeside', hown'.trans hown⟩
  · exact fun effect t habout _ _ hself ↦ absurd hself (hne effect habout)
  · rintro effect choice t habout _ _ ⟨hentitled, hbeside, hown⟩
    have hview : (perform i effect choice t).2.view id = t.view id :=
      view_perform_of_ne (hne effect habout) choice
    exact ⟨hentitled.perform, hview ▸ hbeside, hview ▸ hown⟩
  · exact fun value t _ ⟨hentitled, hbeside, hown⟩ ↦ hQ value t hentitled hbeside hown

/-- An operation that was found is rolled back, or passed on where no plan is rebuilt for it. -/
theorem safeBack_takeOver {record : Operation} (hid : record.id = id)
    (hrecovery : record.recovery = .rollBack) (hentitled : Entitled first i w)
    (hlive : (w.view id).state = some .running ∨ (w.view id).state = some .rolledBack)
    (hown : own i (w.view id).log = [(i, .found)]) :
    SafeBack id plan first i (fun _ ↦ Carried id first i) (takeOver record rebuilders).run w := by
  subst hid
  refine safeBack_beside hentitled rfl (fun _ _ _ _ ↦ trivial)
    fun t choice hbeside hown' _ hchoice hentitled' hbeside' ↦ ?_
  have hpassed : Entitled first i (t.note record.id i .passed) →
      Carried record.id first i (t.note record.id i .passed) := by
    refine fun hentitled ↦ ⟨hentitled, fun htook ↦ absurd ?_ htook.2⟩
    rw [view_note_self]
    exact List.mem_cons_self
  simp only [perform] at hentitled' hbeside' ⊢
  split at hentitled'
  · rename_i hkind
    rw [if_pos hkind] at hbeside' ⊢
    cases choice with
    | error why => exact safeBack_carried (hpassed hentitled')
    | ok plan' =>
      obtain rfl : plan' = plan := hchoice rfl plan' rfl
      rw [hrecovery]
      refine (safeBack_rollBack hentitled' ?_ ?_).mono fun _ s hback ↦
        ⟨hback.1, fun _ ↦ .inr hback.2⟩
      · rcases hbeside.state with heq | ⟨_, hback⟩
        · rwa [heq]
        · exact .inr hback
      · rw [undoings, hown', hown]
        rfl
  · rename_i hkind
    rw [if_neg hkind]
    exact safeBack_carried (hpassed hentitled')

theorem safeBack_actOn {record : Operation} (hid : record.id = id)
    (hrecovery : record.recovery = .rollBack) (hentitled : Entitled first i w)
    (hlive : (w.view id).state = some .running ∨ (w.view id).state = some .rolledBack)
    (hown : own i (w.view id).log = []) :
    SafeBack id plan first i (fun _ ↦ Carried id first i) (actOn here rebuilders record).run w := by
  have huntaken : Carried id first i w := ⟨hentitled, fun htook ↦ absurd htook (not_took hown)⟩
  unfold actOn Owner.stateFor
  split
  · exact safeBack_carried huntaken
  · split
    · exact safeBack_carried huntaken
    · subst hid
      refine safeBack_beside hentitled rfl (fun _ _ _ _ ↦ trivial)
        fun t choice hbeside hown' _ _ hentitled' hbeside' ↦ ?_
      simp only [perform] at hentitled' hbeside' ⊢
      split at hentitled'
      · rename_i hrunning
        rw [if_pos hrunning]
        exact safeBack_carried (huntaken.beside hentitled' hbeside hown')
      · rename_i hgone
        rw [if_neg hgone] at hbeside' ⊢
        refine safeBack_takeOver rfl hrecovery hentitled' ?_ ?_
        · rcases (hbeside.trans hbeside').state with heq | ⟨_, hback⟩
          · rwa [heq]
          · exact .inr hback
        · rw [view_note_self, View.note_log, own_cons, if_pos rfl, hown', hown]

theorem safeBack_resolveEach {rest : List Operation} {resolutions : List Resolution}
    (hids : (rest.map Operation.id).Nodup) (hcarried : Carried id first i w)
    (hrest : ∀ record ∈ rest, record.id = id → record.recovery = .rollBack ∧
      ((w.view id).state = some .running ∨ (w.view id).state = some .rolledBack) ∧
      own i (w.view id).log = []) :
    SafeBack id plan first i (fun _ ↦ Carried id first i)
      (resolveEach here rebuilders rest resolutions).run w := by
  induction rest generalizing resolutions w with
  | nil => exact safeBack_carried hcarried
  | cons record rest ih =>
    obtain ⟨hnotin, hids⟩ := List.nodup_cons.mp hids
    obtain ⟨hrecord, hrest⟩ := List.forall_mem_cons.mp hrest
    by_cases hid : record.id = id
    · obtain ⟨hrecovery, hlive, hown⟩ := hrecord hid
      refine safe_attempt_bind ((safeBack_actOn hid hrecovery hcarried.entitled hlive hown).mono
        fun action t hcarried ↦ ?_)
      cases action with
      | error error => exact safeBack_carried hcarried
      | ok action =>
        refine ih hids hcarried fun other hother hother' ↦ absurd (List.mem_map.mpr ⟨other, hother, ?_⟩)
          hnotin
        rw [hother', hid]
    · refine safe_attempt_bind (safeBack_elsewhere actOn_uses hid hcarried.entitled
        fun action t hentitled hbeside hown ↦ ?_)
      have hcarried' := hcarried.beside hentitled hbeside hown
      cases action with
      | error error => exact safeBack_carried hcarried'
      | ok action =>
        refine ih hids hcarried' fun other hother hother' ↦ ?_
        obtain ⟨hrecovery, hlive, hnone⟩ := hrest other hother hother'
        refine ⟨hrecovery, ?_, hown.trans hnone⟩
        rcases hbeside.state with heq | ⟨_, hback⟩
        · rwa [heq]
        · exact .inr hback

/-- A process that resolves. -/
theorem safeBack_resolve (hentitled : Entitled first i w) (hown : own i (w.view id).log = []) :
    SafeBack id plan first i (fun _ ↦ Carried id first i) (resolve here rebuilders).run w := by
  intro t hst ht
  obtain ⟨hentitled', _, hown'⟩ := hentitled.rely hst
  refine ⟨fun habout ↦ (by cases habout), fun choice _ ↦ ?_⟩
  have hnone : own i (t.view id).log = [] := hown'.trans hown
  refine safeBack_resolveEach (t.journal.unfinished_ordered.imp fun hlt ↦ hlt.ne)
    ⟨hentitled', fun htook ↦ absurd htook (not_took hnone)⟩ ?_
  rintro record hrecord rfl
  obtain ⟨hrow, hstate⟩ := Journal.mem_unfinished_iff.mp hrecord
  refine ⟨ht.1.recovery record hrow, .inl ?_, hnone⟩
  exact Option.map_eq_some_iff.mpr ⟨record, hrow, hstate⟩

end Resolvers

/-! ### The machine -/

section Histories

variable {id : OperationId} {plan : Plan} {first : Process} {c c' : Stage} {label : Happening}

/-- A step after the first process has entered: nobody else runs or retries the operation, resolvers
come once the first is over, and the outside cooperates. -/
def Later (id : OperationId) (plan : Plan) (first : Process) (c : Stage) : Happening → Prop
  | .enter _ (.run other _) | .enter _ (.retry other _) => other ≠ id
  | .enter _ (.resolve _) => Over first c.world
  | .act _ choice => ∀ effect, Cooperates id plan effect (choice effect)
  | .leave _ => True

/-- A process whose job is about another operation. -/
theorem safeBack_stranger {α : Type} {i : Process} {w : World} {other : OperationId} (hi : i ≠ first)
    {p : Program Effect Effect.Answer α} (huses : p.Uses (About other)) (hother : other ≠ id)
    (hown : own i (w.view id).log = []) :
    SafeBack id plan first i (Ends id first i) p w := by
  have hne : ∀ effect, About other effect → effect.about ≠ some id := fun effect habout heq ↦
    hother (Option.some.inj (habout.symm.trans heq))
  refine safe_of_uses (F := fun t ↦ own i (t.view id).log = []) huses hown ?_ ?_ ?_ ?_
  · exact fun s t hst _ hs ↦ (hst.2 hi).1.trans hs
  · exact fun effect t habout _ _ hself ↦ absurd hself (hne effect habout)
  · intro effect choice t habout _ _ ht
    have hview : (perform i effect choice t).2.view id = t.view id :=
      view_perform_of_ne (hne effect habout) choice
    exact (congrArg (fun v ↦ own i v.log) hview).trans ht
  · rintro value t _ ht (hfirst | htook)
    · exact absurd hfirst hi
    · exact absurd htook (not_took ht)

theorem backSound : Sound machine (backContract id plan first) (fun i ↦ Ends id first i)
    (fun c label ↦ Later id plan first c label ∧ Alive c) where
  assume hP _ := hP.1 _
  act {c i choice effect rest} hP hrunning hinv hpre := by
    obtain ⟨hrolling, hknown, hfirst⟩ := hinv
    obtain ⟨hpresent, hseen, _⟩ := hP.2 i (by simp [hrunning])
    have hlog : (perform i effect (choice effect) c.world).2.log id = c.world.log id ∨
        ∃ event, (perform i effect (choice effect) c.world).2.log id =
          (i, event) :: c.world.log id := perform_log effect (choice effect)
    change ((backContract id plan first).inv (perform i effect (choice effect) c.world).2) ∧
      ∀ j p, j ≠ i → c.running j = some p → Reliable (backContract id plan first) _ j p c.world
        (perform i effect (choice effect) c.world).2
    refine ⟨⟨?_, ?_, ?_⟩, fun j p hji hj ↦ .inl ⟨?_, fun hjfirst ↦ ⟨?_, fun hover ↦ ⟨?_, ?_⟩⟩⟩⟩
    · by_cases habout : About id effect
      · exact hrolling.perform habout (hpre habout).2 (hP.1 effect)
      · rw [view_perform_of_ne habout]
        exact hrolling
    · intro entry hentry
      rw [perform_past]
      change entry ∈ (perform i effect (choice effect) c.world).2.log id at hentry
      rcases hlog with hsame | ⟨event, hevent⟩
      · rw [hsame] at hentry
        exact hknown entry hentry
      · rw [hevent] at hentry
        rcases List.mem_cons.mp hentry with rfl | hentry
        · exact hseen
        · exact hknown entry hentry
    · rwa [perform_past]
    · -- Where the first is alive, nobody else is inside the operation.
      rintro rfl
      refine view_perform_of_ne (fun habout ↦ ?_) _
      exact ((hpre habout).1 hji.symm).2 (hP.2 j (by simp [hj])).1
    · change own j ((perform i effect (choice effect) c.world).2.log id) = own j (c.world.log id)
      rcases hlog with hsame | ⟨event, hevent⟩
      · rw [hsame]
      · rw [hevent, own_cons_of_ne hji.symm]
    · rwa [Over, perform_processes, perform_past]
    · by_cases habout : About id effect
      · have hi : i ≠ first := fun heq ↦ hover.2 (heq ▸ hpresent)
        exact Beside.perform habout ((hpre habout).2.mono hi) (hP.1 effect)
      · rw [view_perform_of_ne habout]
        exact .refl _
  enter {c i job world} hP hrunning hworld hinv := by
    obtain ⟨hrolling, hknown, hfirst⟩ := hinv
    have hview : world.view id = c.world.view id := view_arrive hworld
    obtain ⟨hnew, _, hprocesses, hpast⟩ := arrive_keeps hworld
    have hi : i ≠ first := fun heq ↦ hnew (heq ▸ hfirst)
    have hover : Over first c.world → Over first world := fun hover ↦ by
      refine ⟨hpast ▸ List.mem_cons_of_mem _ hover.1, fun hmem ↦ ?_⟩
      rcases List.mem_cons.mp (hprocesses ▸ hmem) with heq | hmem
      · exact hi heq.symm
      · exact hover.2 hmem
    have hown : own i (world.view id).log = [] := by
      rw [hview]
      refine List.filter_eq_nil_iff.mpr fun entry hentry hself ↦ hnew ?_
      exact of_decide_eq_true hself ▸ hknown entry hentry
    refine ⟨⟨hview ▸ hrolling, fun entry hentry ↦ ?_, ?_⟩, ?_, fun j _ _ _ ↦
      .inl ⟨fun _ ↦ hview, fun _ ↦ ⟨by rw [hview], fun h ↦ ⟨hover h, hview ▸ .refl _⟩⟩⟩⟩
    · rw [hpast]
      exact List.mem_cons_of_mem _ (hknown entry (hview ▸ hentry))
    · rw [hpast]
      exact List.mem_cons_of_mem _ hfirst
    · cases job with
      | run other plan' =>
        exact safeBack_stranger hi (uses_bind run_uses fun _ ↦ Program.uses_done _ _) hP.1 hown
      | retry other plan' =>
        exact safeBack_stranger hi (uses_bind retry_uses fun _ ↦ Program.uses_done _ _) hP.1 hown
      | resolve rebuilders =>
        have hcarried : SafeBack id plan first i (fun _ ↦ Carried id first i)
            (called i (.resolve rebuilders)).run world := by
          refine safe_attempt_bind ((safeBack_resolve (fun _ ↦ hover hP.1) hown).mono
            fun result t hcarried ↦ ?_)
          cases result with
          | ok value => exact safeBack_carried hcarried
          | error error => exact safeBack_carried hcarried
        refine hcarried.mono fun result t hcarried ↦ ?_
        rintro (hfirst | htook)
        · exact absurd hfirst hi
        · exact hcarried.settled htook
  leave {c i p} hP hrunning hinv := by
    refine ⟨hinv, fun j _ _ _ ↦
      .inl ⟨fun _ ↦ rfl, fun _ ↦ ⟨rfl, fun hover ↦ ⟨⟨hover.1, ?_⟩, .refl _⟩⟩⟩⟩
    exact fun hmem ↦ hover.2 (List.mem_filter.mp hmem).1

/-- What is allowed about an operation that is over leaves it so. -/
theorem Settled.perform {w : World} {i : Process} {runs : Prop} {effect : Effect}
    {choice : effect.Choice} (h : Settled (w.view id)) (habout : About id effect)
    (hallowed : Allowed plan runs i effect (w.view id)) :
    Settled ((perform i effect choice w).2.view id) := by
  have hnot : (w.view id).state ≠ some .running := by
    rcases h with hstate | hstate <;> simp [hstate]
  cases effect with
  | start other plan' =>
    rw [Settled, hallowed.2.1] at h
    rcases h with hstate | hstate <;> cases hstate
  | markStep other mark =>
    obtain rfl : other = id := Option.some.inj habout
    rw [view_markStep]
    exact h
  | finish other state =>
    obtain rfl : other = id := Option.some.inj habout
    rw [perform_finish_closed state choice hnot]
    exact h
  | reopen other => exact hallowed.elim
  | steps other => exact h
  | unfinished => exact h
  | isRunning other pid =>
    obtain rfl : other = id := Option.some.inj habout
    simp only [Lifecycle.perform]
    split
    · exact h
    · rw [view_note_self]
      exact h
  | rebuild rebuilders record =>
    obtain rfl : record.id = id := Option.some.inj habout
    have hpassed : Settled ((w.note record.id i .passed).view record.id) := by
      rw [view_note_self]
      exact h
    simp only [Lifecycle.perform]
    split
    · split
      · exact h
      · exact hpassed
    · exact hpassed
  | snapshot other records kind => exact h
  | beginApply other position => exact absurd hallowed.2.1 hnot
  | endApply other position => exact absurd hallowed.2.1 hnot
  | beginUndo other position =>
    obtain rfl : other = id := Option.some.inj habout
    rw [Lifecycle.perform, view_note_self]
    exact h
  | endUndo other position =>
    obtain rfl : other = id := Option.some.inj habout
    cases choice <;> rw [Lifecycle.perform, view_note_self] <;> exact h
  | commit other kind outputs => exact absurd hallowed.2.1 hnot

theorem settled_next_back (hnext : machine.next c label = some c')
    (hc : Guarded machine (backContract id plan first) (fun i ↦ Ends id first i) c)
    (h : Settled (c.world.view id)) : Settled (c'.world.view id) := by
  cases label with
  | enter i job =>
    obtain ⟨_, world, hworld, rfl⟩ := Machine.next_enter_eq_some.mp hnext
    have hview : world.view id = c.world.view id := view_arrive hworld
    exact hview ▸ h
  | act i choice =>
    obtain ⟨effect, rest, hrunning, rfl⟩ := Machine.next_act_eq_some.mp hnext
    obtain ⟨hpre, _⟩ := hc.2 i _ hrunning c.world ((backContract id plan first).rely_refl i _) hc.1
    change Settled ((perform i effect (choice effect) c.world).2.view id)
    by_cases habout : About id effect
    · exact h.perform habout (hpre habout).2
    · rw [view_perform_of_ne habout]
      exact h
  | leave i =>
    obtain ⟨_, _, rfl⟩ := Machine.next_leave_eq_some.mp hnext
    exact h

/-- Once the first process has entered, everybody keeps the contract. -/
theorem guarded_entered {c₀ : Stage} (hrecovery : plan.recovery = .rollBack) (hidle : Idle c₀)
    (huntouched : Untouched id c₀.world)
    (hfirst : machine.next c₀ (.enter first (.run id plan)) = some c) :
    Guarded machine (backContract id plan first) (fun i ↦ Ends id first i) c := by
  obtain ⟨_, world, hworld, rfl⟩ := Machine.next_enter_eq_some.mp hfirst
  have harrive : arrive first (.run id plan) c₀.world = some world := hworld
  have hview : world.view id = ⟨none, ∅, []⟩ := (view_arrive harrive).trans huntouched
  obtain ⟨_, _, _, hpast⟩ := arrive_keeps harrive
  have hlog : (world.view id).log = [] := congrArg View.log hview
  refine ⟨⟨hview ▸ .untouched, fun entry hentry ↦ ?_, hpast ▸ List.mem_cons_self⟩, fun i p hp ↦ ?_⟩
  · rw [hlog] at hentry
    cases hentry
  · change Function.update c₀.running first _ i = some p at hp
    by_cases hi : i = first
    · subst hi
      rw [Function.update_self] at hp
      obtain rfl := Option.some.inj hp
      refine safe_attempt_bind ((safeBack_run hrecovery hview).mono fun result t hends ↦ ?_)
      cases result with
      | ok value => exact safeBack_ended (hends (.inl rfl))
      | error error => exact safeBack_ended (hends (.inl rfl))
    · rw [Function.update_of_ne hi, hidle i] at hp
      cases hp

/-- How an operation that rolls back ends. At every point of every history, only steps that were
started are undone, and each process undoes in order; where the operation is committed, every step
is applied and the registry was written once; where it is rolled back, every step that was started
is undone and the registry was not written. Once the first process has returned, or a resolver that
took the operation over has, it is one of the two from then on. Assumes: nobody was alive and nothing
was done about the operation before the first process, resolvers come once that one is over, and no
undo fails. -/
theorem committed_or_rolledBack {c₀ c₁ c₂ : Stage} {before after : List Happening}
    (hrecovery : plan.recovery = .rollBack) (hidle : Idle c₀) (huntouched : Untouched id c₀.world)
    (hfirst : machine.next c₀ (.enter first (.run id plan)) = some c)
    (hlater : machine.Along (Later id plan first) c (before ++ after))
    (hbefore : machine.exec c before = some c₁) (hafter : machine.exec c₁ after = some c₂) :
    (∀ process position deed, (process, .acted position deed) ∈ (c₂.world.view id).log →
      Started (c₂.world.view id).log position) ∧
    (∀ process, (undoings process (c₂.world.view id).log).Pairwise (· < ·)) ∧
    ((c₂.world.view id).state = some .committed → commits (c₂.world.view id).log = 1 ∧
      NoUndo (c₂.world.view id).log ∧ AllApplied plan (c₂.world.view id)) ∧
    ((c₂.world.view id).state = some .rolledBack → commits (c₂.world.view id).log = 0 ∧
      ∀ position, Started (c₂.world.view id).log position →
        standing (c₂.world.view id).log position = some .undone) ∧
    ∀ i result, c₁.running i = some (.done result) → (i = first ∨ Took i (c₁.world.view id)) →
      (c₂.world.view id).state = some .committed ∨ (c₂.world.view id).state = some .rolledBack := by
  have hstart := guarded_entered hrecovery hidle huntouched hfirst
  have halive : Alive c := alive_next hfirst fun i hi ↦ absurd (hidle i) hi
  have halong := hlater.and_invariant (fun _ _ _ _ ↦ alive_next) halive
  obtain ⟨halong₁, halong₂⟩ := Machine.along_append.mp halong
  have hguarded₁ := backSound.guarded_exec halong₁ hbefore hstart
  have hguarded₂ := backSound.guarded_exec (halong₂ c₁ hbefore) hafter hguarded₁
  obtain ⟨hrolling, _⟩ := hguarded₂.1
  refine ⟨hrolling.acted, hrolling.ordered, fun hstate ↦ ?_, fun hstate ↦ ?_,
    fun i result hdone htook ↦ ?_⟩
  · obtain ⟨hno, happlied⟩ := hrolling.committed hstate
    refine ⟨by simpa [hstate] using hrolling.written, hno, fun position hlt ↦ ?_⟩
    rw [lastDeed_of_standing hno]
    exact happlied position hlt
  · exact ⟨by simpa [hstate] using hrolling.written, hrolling.rolledBack hstate⟩
  · have hsettled : Settled (c₁.world.view id) := hguarded₁.2 i _ hdone c₁.world
      ((backContract id plan first).rely_refl i _) hguarded₁.1 htook
    have hstep : ∀ c label c', Later id plan first c label ∧ Alive c →
        machine.next c label = some c' →
        Guarded machine (backContract id plan first) (fun i ↦ Ends id first i) c ∧
          Settled (c.world.view id) →
        Guarded machine (backContract id plan first) (fun i ↦ Ends id first i) c' ∧
          Settled (c'.world.view id) := fun c label c' hP hnext hc ↦
      ⟨backSound.guarded_next hP hnext hc.1, settled_next_back hnext hc.1 hc.2⟩
    exact (Machine.exec_induction hstep (halong₂ c₁ hbefore) hafter ⟨hguarded₁, hsettled⟩).2

end Histories

/-! ### A rollback that is interrupted -/

/-- A clone and an install, undone when they are not finished. -/
def buildOrNothing : Plan := { build with recovery := .rollBack }

/-- The registry write fails. -/
def diskFull : (effect : Effect) → effect.Choice :=
  choosing (.ok buildOrNothing) (fun _ ↦ .ok .null) (fun _ ↦ .ok ()) (.error "disk full")

/-- The process dies after the install was taken back and before that was written down, and the next
one resolves. -/
def interrupted : List Happening :=
  (List.replicate 13 (.act (nth 1) diskFull) ++ [.leave (nth 1)]) ++
    .enter (nth 2) (.resolve ["build"]) :: List.replicate 11 (.act (nth 2) diskFull)

private theorem cooperates_diskFull (effect : Effect) :
    Cooperates 0 buildOrNothing effect (diskFull effect) := by
  cases effect with
  | endUndo other position => rintro _ why ⟨⟩
  | snapshot other records kind => rintro _ why ⟨⟩
  | rebuild rebuilders record => exact fun _ plan' h ↦ (Except.ok.inj h).symm
  | _ => trivial

private theorem later_interrupted {c : Stage}
    (hfirst : machine.next beginning (.enter (nth 1) (.run 0 buildOrNothing)) = some c) :
    machine.Along (Later 0 buildOrNothing (nth 1)) c (interrupted ++ []) := by
  have hacts : ∀ {n} {process : Process} {c : Stage}, machine.Along (Later 0 buildOrNothing (nth 1))
      c (List.replicate n (.act process diskFull)) := by
    intro n process c
    have hlabels : ∀ label ∈ List.replicate n (.act process diskFull),
        ∀ c : Stage, Later 0 buildOrNothing (nth 1) c label := fun label hlabel c ↦ by
      rw [List.eq_of_mem_replicate hlabel]
      exact cooperates_diskFull
    exact (Machine.along_of_labels hlabels).mono fun c label h ↦ h c
  rw [List.append_nil, interrupted]
  refine Machine.along_append.mpr ⟨Machine.along_append.mpr ⟨hacts, fun _ _ ↦ ⟨trivial, fun _ _ ↦
    trivial⟩⟩, fun c₁ hc₁ ↦ ⟨?_, fun _ _ ↦ hacts⟩⟩
  have hover : (machine.exec beginning (.enter (nth 1) (.run 0 buildOrNothing) ::
      (List.replicate 13 (.act (nth 1) diskFull) ++ [.leave (nth 1)]))).map (fun c ↦
        decide (nth 1 ∈ c.world.past) && decide (nth 1 ∉ c.world.processes)) = some true := by
    decide +kernel
  rw [Machine.exec, hfirst, Option.bind_some, hc₁] at hover
  simpa [Later, Over] using hover

/-- `committed_or_rolledBack` at that history: the resolver finishes the rollback. -/
theorem committed_or_rolledBack_interrupted : ∃ c : Stage,
    machine.exec beginning (.enter (nth 1) (.run 0 buildOrNothing) :: interrupted) = some c ∧
      (c.world.view 0).state = some .rolledBack ∧ commits (c.world.view 0).log = 0 ∧
      ∀ process position deed, (process, .acted position deed) ∈ (c.world.view 0).log →
        standing (c.world.view 0).log position = some .undone := by
  have hexec : (machine.exec beginning (.enter (nth 1) (.run 0 buildOrNothing) ::
      interrupted)).map (fun c ↦ (c.world.view 0).state) = some (some .rolledBack) := by
    decide +kernel
  obtain ⟨c₂, hc₂, hstate⟩ := Option.map_eq_some_iff.mp hexec
  obtain ⟨c, hfirst, hbefore⟩ := Machine.exec_cons_eq_some.mp hc₂
  obtain ⟨hacted, _, _, hback, _⟩ := committed_or_rolledBack rfl (fun _ ↦ rfl) untouched_beginning
    hfirst (later_interrupted hfirst) hbefore rfl
  obtain ⟨hcommits, hundone⟩ := hback hstate
  exact ⟨c₂, hc₂, hstate, hcommits, fun process position deed hmem ↦
    hundone position (hacted process position deed hmem)⟩

end Nodal.Lifecycle
