import Nodal.Lifecycle.Inside
import Nodal.Lifecycle.RolledBack

/-!
# A rollback whose undos fail

An undo that fails leaves its step standing as it was. `Recalled` is what holds of an operation that
rolls back while that happens any number of times: every undo that succeeded is in the journal, the
one being written down apart, none of them is begun again, and the row leaves `running` only where
nothing is left to undo. `Fair` is what it takes, of the moments a process finds the operation or
closes it; `Recalled.perform` says what one effect keeps.
-/

set_option autoImplicit false

namespace Nodal.Lifecycle

open Nodal.Foundation

/-! ### What is left to undo -/

/-- A step that may have acted has had no undo that succeeded since. -/
def Outstanding (v : View) : Prop :=
  ∃ position, Started v.log position ∧ standing v.log position ≠ some .undone

/-- The journal has the step as undone. -/
def Written (v : View) (position : ℕ) : Prop :=
  ∃ row, v.steps.get? position = some row ∧ row.state = .undone

/-- The last thing that happened to the operation is that a process undid the step. -/
def Undid (process : Process) (position : ℕ) (v : View) : Prop :=
  v.log.head? = some (process, .acted position .undone)

/-- No undo is begun of a step whose undo succeeded. -/
def Once (log : Log) : Prop :=
  log.Pairwise fun later earlier ↦ ∀ position, earlier.2 = .acted position .undone →
    later.2 ≠ .acted position .undoing

/-- The row was closed before a step was begun. -/
structure Barren (v : View) : Prop where
  failed : v.state = some .failed
  unacted : ∀ process position deed, (process, .acted position deed) ∉ v.log
  unstarted : ∀ position, ¬Started v.log position

/-- What holds of an operation that rolls back, whichever of its undos failed. -/
structure Recalled (id : OperationId) (plan : Plan) (w : World) : Prop where
  going : RollingBack plan (w.view id) ∨ Barren (w.view id)
  opened : (w.view id).row = none → w.view id = ⟨none, ∅, []⟩
  one : ∀ i ∈ insiders (w.view id).log, ∀ j ∈ insiders (w.view id).log,
    i ∈ w.processes → j ∈ w.processes → i = j
  written : ∀ position, standing (w.view id).log position = some .undone →
    Written (w.view id) position ∨
      ∃ i ∈ insiders (w.view id).log, i ∈ w.processes ∧ Undid i position (w.view id)
  final : ∀ process position, (process, .acted position .undone) ∈ (w.view id).log →
    standing (w.view id).log position = some .undone
  once : Once (w.view id).log
  known : ∀ entry ∈ (w.view id).log, entry.1 ∈ w.past

/-- What a history has to grant: whoever finds the operation finds it running with no other live
process inside, nobody closes it as `failed` while something is left to undo, and what is rebuilt is
the plan. -/
def Fair (id : OperationId) (plan : Plan) (i : Process) :
    (effect : Effect) → effect.Choice → World → Prop
  | .isRunning other pid, choice, w => other = id → w.isRunning i.owner.host pid choice = false →
      (w.view id).state = some .running ∧
        ∀ j ∈ insiders (w.view id).log, j ≠ i → j ∉ w.processes
  | .finish other state, _, w => other = id → state = .failed → ¬Outstanding (w.view id)
  | .rebuild _ record, choice, _ => record.id = id → ∀ plan', choice = .ok plan' → plan' = plan
  | _, _, _ => True

/-- What a process owes of an effect about the operation. -/
def Owes (plan : Plan) (first i : Process) (effect : Effect) (v : View) : Prop :=
  match effect with
  | .start _ plan' => i = first ∧ v.row = none ∧ plan'.recovery = .rollBack
  | .isRunning _ _ => v.row ≠ none ∧ ∀ position, ¬Undid i position v
  | .finish _ .failed => i ∈ insiders v.log ∧ (∀ position, ¬Undid i position v) ∧
      ((∀ position, ¬Started v.log position) ∨ Outstanding v)
  | .markStep id mark => i ∈ insiders v.log ∧ Allowed plan (i = first) i (.markStep id mark) v ∧
      (mark.state ≠ .undone → NoUndo v.log) ∧
      ∀ position, Undid i position v → mark.position = position ∧ mark.state = .undone
  | .beginUndo id position => i ∈ insiders v.log ∧
      Allowed plan (i = first) i (.beginUndo id position) v ∧
      (∀ position, ¬Undid i position v) ∧ standing v.log position ≠ some .undone
  | effect => i ∈ insiders v.log ∧ Allowed plan (i = first) i effect v ∧
      ∀ position, ¬Undid i position v

section Logs

variable {log : Log} {i process : Process} {event : Event} {v : View} {position : ℕ}

theorem once_cons : Once ((process, event) :: log) ↔
    (∀ position, event = .acted position .undoing → ∀ other,
      (other, .acted position .undone) ∉ log) ∧ Once log := by
  simp only [Once, List.pairwise_cons]
  refine and_congr_left fun _ ↦ ⟨fun h position hevent other hmem ↦ ?_, ?_⟩
  · exact h _ hmem position rfl hevent
  · rintro h ⟨other, earlier⟩ hmem position hearlier hevent
    obtain rfl : earlier = .acted position .undone := hearlier
    exact h position hevent other hmem

theorem not_undone_of_noUndo (hno : NoUndo log) : standing log position ≠ some .undone := by
  intro hundone
  obtain ⟨other, hmem⟩ := mem_of_standing hundone
  cases hno other position .undone hmem

theorem not_undid_of_noUndo (hno : NoUndo v.log) : ¬Undid i position v := by
  intro hundid
  cases hno i position .undone (List.mem_of_mem_head? hundid)

theorem not_undid_of_own (hown : own i v.log = []) : ¬Undid i position v := by
  intro hundid
  have hmem : (i, Event.acted position .undone) ∈ own i v.log :=
    List.mem_filter.mpr ⟨List.mem_of_mem_head? hundid, by simp⟩
  rw [hown] at hmem
  cases hmem

end Logs

/-! ### What one effect keeps -/

section Keeping

variable {id : OperationId} {plan : Plan} {first i : Process} {w w' : World} {event : Event}
  {v : View}

theorem Barren.not_running (h : Barren v) : v.state ≠ some .running := by
  rw [h.failed]
  simp

/-- An event that is neither a mark nor a deed. -/
theorem Barren.note_plain (h : Barren v) (hmark : ∀ mark, event ≠ .marked mark)
    (hdeed : ∀ position deed, event ≠ .acted position deed) : Barren (v.note i event) := by
  refine ⟨h.failed, fun process position deed hmem ↦ ?_, fun position hstarted ↦ ?_⟩
  · rcases List.mem_cons.mp hmem with heq | hmem
    · exact hdeed position deed (Prod.mk.inj heq).2.symm
    · exact h.unacted process position deed hmem
  · exact h.unstarted position ((started_of_plain hmark).mp hstarted)

/-- Whoever is inside and alive is the only one. -/
theorem Recalled.sole (h : Recalled id plan w) (hi : i ∈ insiders (w.view id).log)
    (hlive : i ∈ w.processes) : ∀ j ∈ insiders (w.view id).log, j ∈ w.processes → j = i :=
  fun j hj hjlive ↦ h.one j hj i hi hjlive hlive

/-- What stands undone is in the journal, where the only live process inside has written its last
undo down. -/
theorem Recalled.clear (h : Recalled id plan w) {position : ℕ}
    (hsole : ∀ j ∈ insiders (w.view id).log, j ∈ w.processes → j = i)
    (hnot : ∀ position, ¬Undid i position (w.view id))
    (hundone : standing (w.view id).log position = some .undone) :
    Written (w.view id) position := by
  rcases h.written position hundone with hwritten | ⟨j, hj, hlive, hundid⟩
  · exact hwritten
  · exact absurd (hsole j hj hlive ▸ hundid) (hnot position)

/-- One event of the only live process inside. A deed that says where a step stands is an undo, or
nothing was undone before it, and an undo is begun of a step that does not stand undone. -/
theorem Recalled.step (h : Recalled id plan w) (hprocesses : w'.processes = w.processes)
    (hpast : w'.past = w.past) (hseen : i ∈ w.past)
    (hlog : (w'.view id).log = (i, event) :: (w.view id).log) (hrow : (w'.view id).row ≠ none)
    (hgoing : RollingBack plan (w'.view id) ∨ Barren (w'.view id))
    (hsole : ∀ j ∈ insiders (w'.view id).log, j ∈ w.processes → j = i)
    (hclear : ∀ position, standing (w.view id).log position = some .undone →
      Written (w'.view id) position)
    (hdeed : ∀ position deed, event = .acted position deed →
      i ∈ insiders (w.view id).log ∧ i ∈ w.processes ∧
        (deed.stands = true → deed = .undone ∨ NoUndo (w.view id).log) ∧
        (deed = .undoing → standing (w.view id).log position ≠ some .undone)) :
    Recalled id plan w' := by
  -- Where a step stood undone, it still does.
  have hkeeps : ∀ position, standing (w.view id).log position = some .undone →
      standing (w'.view id).log position = some .undone := by
    intro position hundone
    rw [hlog, standing_cons, hundone]
    cases hevent : (event.deedAt position).filter Deed.stands with
    | none => rfl
    | some deed =>
      obtain ⟨hdeedAt, hstands⟩ := Option.filter_eq_some_iff.mp hevent
      cases event with
      | acted other deed' =>
        simp only [Event.deedAt] at hdeedAt
        split at hdeedAt
        · obtain rfl : deed' = deed := Option.some.inj hdeedAt
          rcases (hdeed other deed' rfl).2.2.1 hstands with rfl | hno
          · rfl
          · exact absurd hundone (not_undone_of_noUndo hno)
        · cases hdeedAt
      | _ => cases hdeedAt
  refine ⟨hgoing, fun hnone ↦ absurd hnone hrow, fun j hj k hk hjlive hklive ↦ ?_, ?_, ?_, ?_, ?_⟩
  · rw [hprocesses] at hjlive hklive
    rw [hsole j hj hjlive, hsole k hk hklive]
  · intro position hundone
    rw [hlog, standing_cons] at hundone
    cases hevent : (event.deedAt position).filter Deed.stands with
    | none =>
      rw [hevent, Option.none_or] at hundone
      exact .inl (hclear position hundone)
    | some deed =>
      rw [hevent] at hundone
      obtain rfl : deed = .undone := Option.some.inj hundone
      obtain ⟨hdeedAt, _⟩ := Option.filter_eq_some_iff.mp hevent
      cases event with
      | acted other deed' =>
        simp only [Event.deedAt] at hdeedAt
        split at hdeedAt
        · rename_i heq
          obtain rfl : deed' = .undone := Option.some.inj hdeedAt
          obtain ⟨hinside, hlive, _⟩ := hdeed other .undone rfl
          refine .inr ⟨i, ?_, hprocesses ▸ hlive, ?_⟩
          · rw [hlog]
            exact hinside
          · rw [Undid, hlog, heq]
            rfl
        · cases hdeedAt
      | _ => cases hdeedAt
  · intro process position hmem
    rw [hlog] at hmem
    rcases List.mem_cons.mp hmem with heq | hmem
    · rw [hlog, ← (Prod.mk.inj heq).2]
      exact standing_acted rfl
    · exact hkeeps position (h.final process position hmem)
  · rw [hlog, once_cons]
    refine ⟨fun position hevent other hmem ↦ ?_, h.once⟩
    exact (hdeed position .undoing hevent).2.2.2 rfl (h.final other position hmem)
  · intro entry hentry
    rw [hpast]
    rcases List.mem_cons.mp (hlog ▸ hentry) with rfl | hentry
    · exact hseen
    · exact h.known entry hentry

theorem Recalled.row_of_inside (h : Recalled id plan w) (hi : i ∈ insiders (w.view id).log) :
    (w.view id).row ≠ none := by
  intro hnone
  rw [h.opened hnone] at hi
  cases hi

theorem Recalled.rolling (h : Recalled id plan w) (hrunning : (w.view id).state = some .running) :
    RollingBack plan (w.view id) :=
  h.going.resolve_right fun hbarren ↦ hbarren.not_running hrunning

theorem Recalled.rolling_of_started (h : Recalled id plan w) {position : ℕ}
    (hstarted : Started (w.view id).log position) : RollingBack plan (w.view id) :=
  h.going.resolve_right fun hbarren ↦ hbarren.unstarted position hstarted

/-- A deed of the process inside. -/
theorem Recalled.perform_deed (h : Recalled id plan w) (hlive : i ∈ w.processes)
    (hseen : i ∈ w.past) (hi : i ∈ insiders (w.view id).log)
    (hnot : ∀ position, ¬Undid i position (w.view id)) {position : ℕ} {deed : Deed}
    (hgoing : RollingBack plan ((w.view id).note i (.acted position deed)))
    (hstands : deed.stands = true → deed = .undone ∨ NoUndo (w.view id).log)
    (hundoing : deed = .undoing → standing (w.view id).log position ≠ some .undone) :
    Recalled id plan (w.note id i (.acted position deed)) := by
  refine h.step rfl rfl hseen (congrArg View.log view_note_self) ?_ (.inl ?_) ?_ ?_ ?_
  · rw [view_note_self]
    exact h.row_of_inside hi
  · rw [view_note_self]
    exact hgoing
  · rw [view_note_self]
    exact h.sole hi hlive
  · intro position hundone
    rw [view_note_self]
    exact h.clear (h.sole hi hlive) hnot hundone
  · intro position' deed' hevent
    cases hevent
    exact ⟨hi, hlive, hstands, hundoing⟩

/-- The row of a step is written by the process inside. -/
theorem Recalled.perform_markStep (h : Recalled id plan w) (hlive : i ∈ w.processes)
    (hseen : i ∈ w.past) {mark : StepRecord} {choice : (Effect.markStep id mark).Choice}
    (howes : Owes plan first i (.markStep id mark) (w.view id)) :
    Recalled id plan (perform i (.markStep id mark) choice w).2 := by
  obtain ⟨hi, hallowed, hno, hundid⟩ := howes
  have hview := @view_markStep w id i mark choice
  refine h.step rfl rfl hseen (congrArg View.log hview) ?_ ?_ ?_ ?_ fun _ _ hevent ↦ by cases hevent
  · rw [hview]
    exact h.row_of_inside hi
  · rw [hview]
    rcases h.going with hrolling | hbarren
    · exact .inl (hrolling.markStep hallowed)
    · simp only [Allowed] at hallowed
      cases hmark : mark.state with
      | applying => exact absurd (hmark ▸ hallowed).2.1 hbarren.not_running
      | applied => exact absurd (hmark ▸ hallowed).2.1 hbarren.not_running
      | undone =>
        rw [hmark] at hallowed
        exact absurd hallowed.2 (hbarren.unstarted _)
  · rw [hview]
    exact h.sole hi hlive
  · intro position hundone
    rw [hview]
    have hstate : mark.state = .undone := by
      by_contra hstate
      exact not_undone_of_noUndo (hno hstate) hundone
    have hmarked : ((w.view id).markStep mark).steps.get? mark.position =
        some (Journal.merged mark ((w.view id).steps.get? mark.position)) := by
      rw [View.get?_markStep, if_pos rfl]
    by_cases hposition : position = mark.position
    · refine ⟨_, hposition ▸ hmarked, ?_⟩
      exact hstate
    · rcases h.written position hundone with ⟨row, hrow, hundone⟩ | ⟨j, hj, hjlive, hjundid⟩
      · refine ⟨row, ?_, hundone⟩
        rw [View.note_steps, View.get?_markStep, if_neg hposition]
        exact hrow
      · rw [h.sole hi hlive j hj hjlive] at hjundid
        exact absurd (hundid position hjundid).1.symm hposition

/-- The row is closed by the process inside. -/
theorem Recalled.perform_closed (h : Recalled id plan w) (hseen : i ∈ w.past)
    (hlive : i ∈ w.processes) (hi : i ∈ insiders (w.view id).log)
    (hnot : ∀ position, ¬Undid i position (w.view id)) {state : State} {event : Event}
    (hprocesses : w'.processes = w.processes) (hpast : w'.past = w.past)
    (hview : w'.view id = ((w.view id).move state).note i event)
    (hevent : ∀ position deed, event ≠ .acted position deed)
    (hnobody : insiders ((i, event) :: (w.view id).log) = [])
    (hgoing : RollingBack plan (w'.view id) ∨ Barren (w'.view id)) : Recalled id plan w' := by
  refine h.step hprocesses hpast hseen (congrArg View.log hview) ?_ hgoing ?_ ?_
    fun position deed heq ↦ absurd heq (hevent position deed)
  · rw [hview]
    exact View.move_row_ne_none.mpr (h.row_of_inside hi)
  · rw [hview, View.note_log, View.move_log, hnobody]
    intro j hj
    cases hj
  · intro position hundone
    rw [hview]
    exact h.clear (h.sole hi hlive) hnot hundone

/-- Where nothing was begun, the row is closed as `failed`. -/
theorem RollingBack.barren (h : RollingBack plan v) (hrunning : v.state = some .running)
    (hunstarted : ∀ position, ¬Started v.log position) :
    Barren ((v.move .failed).note i (.closed .failed)) := by
  refine Barren.note_plain ⟨?_, fun process position deed hmem ↦ ?_, hunstarted⟩ (by simp) (by simp)
  · simp [View.move_state, hrunning]
  · exact hunstarted position (h.acted process position deed hmem)

/-- What one effect keeps. -/
theorem Recalled.perform (h : Recalled id plan w) (hlive : i ∈ w.processes) (hseen : i ∈ w.past)
    {effect : Effect} {choice : effect.Choice} (habout : About id effect)
    (howes : Owes plan first i effect (w.view id)) (hfair : Fair id plan i effect choice w) :
    Recalled id plan (perform i effect choice w).2 := by
  cases effect with
  | start other plan' =>
    obtain rfl : other = id := Option.some.inj habout
    obtain ⟨_, hrow, hrecovery⟩ := howes
    have hview := @view_start w other i plan' choice
    have hlog : ((Lifecycle.perform i (.start other plan') choice w).2.view other).log =
        (i, .started) :: (w.view other).log := congrArg View.log hview
    rw [h.opened hrow] at hview
    refine h.step rfl rfl hseen hlog ?_ (.inl ?_) ?_ (fun position hundone ↦ ?_)
      fun _ _ hevent ↦ (nomatch hevent)
    · rw [hview]
      simp
    · rw [hview]
      exact RollingBack.start hrecovery
    · rw [hview]
      intro j hj _
      exact List.mem_singleton.mp hj
    · rw [h.opened hrow] at hundone
      cases hundone
  | markStep other mark =>
    obtain rfl : other = id := Option.some.inj habout
    exact h.perform_markStep hlive hseen howes
  | finish other state =>
    obtain rfl : other = id := Option.some.inj habout
    by_cases hrunning : (w.view other).state = some .running
    · have hview := (perform_finish_open i state choice hrunning).2
      have hrolling := h.rolling hrunning
      have hkept := @perform_keeps w other i (.finish other state) choice
      cases state with
      | failed =>
        obtain ⟨hi, hnot, hunstarted | houtstanding⟩ := howes
        · refine h.perform_closed hseen hlive hi hnot hkept.1 hkept.2.1 hview (by simp) rfl (.inr ?_)
          rw [hview]
          exact hrolling.barren hrunning hunstarted
        · exact absurd houtstanding (hfair rfl rfl)
      | rolledBack =>
        obtain ⟨hi, ⟨_, hback⟩, hnot⟩ := howes
        refine h.perform_closed hseen hlive hi hnot hkept.1 hkept.2.1 hview (by simp) rfl (.inl ?_)
        rw [hview]
        exact (hrolling.move hrunning (by simp) (by simp) fun _ ↦ hback).note_plain (by simp)
          (by simp) rfl
      | running => exact absurd howes.2.1.1 (by simp)
      | committed => exact absurd howes.2.1.1 (by simp)
    · rw [perform_finish_closed state choice hrunning]
      exact h
  | reopen other => exact howes.2.1.elim
  | steps other => exact h
  | unfinished => exact h
  | isRunning other pid =>
    obtain rfl : other = id := Option.some.inj habout
    obtain ⟨hrow, hnot⟩ := howes
    rw [Lifecycle.perform]
    split
    · exact h
    · rename_i hgone
      obtain ⟨hrunning, halone⟩ := hfair rfl (by simpa using hgone)
      have hsole : ∀ j ∈ insiders (w.view other).log, j ∈ w.processes → j = i := by
        intro j hj hjlive
        by_contra hji
        exact halone j hj hji hjlive
      refine h.step rfl rfl hseen (congrArg View.log view_note_self) ?_ (.inl ?_) ?_
        (fun position hundone ↦ ?_) fun _ _ hevent ↦ (by cases hevent)
      · rw [view_note_self]
        exact hrow
      · rw [view_note_self]
        exact (h.rolling hrunning).note_plain (by simp) (by simp) rfl
      · rw [view_note_self]
        intro j hj hjlive
        rcases List.mem_cons.mp hj with rfl | hj
        · rfl
        · exact hsole j hj hjlive
      · rw [view_note_self]
        exact h.clear hsole hnot hundone
  | rebuild rebuilders record =>
    obtain rfl : record.id = id := Option.some.inj habout
    obtain ⟨hi, _, hnot⟩ := howes
    have hpassed : Recalled record.id plan (w.note record.id i .passed) := by
      refine h.step rfl rfl hseen (congrArg View.log view_note_self) ?_ ?_ ?_
        (fun position hundone ↦ ?_) fun _ _ hevent ↦ (by cases hevent)
      · rw [view_note_self]
        exact h.row_of_inside hi
      · rw [view_note_self]
        refine h.going.imp (fun hrolling ↦ ?_) fun hbarren ↦ ?_
        · exact hrolling.note_plain (by simp) (by simp) rfl
        · exact hbarren.note_plain (by simp) (by simp)
      · rw [view_note_self]
        exact fun j hj ↦ h.sole hi hlive j (List.mem_filter.mp hj).1
      · rw [view_note_self]
        exact h.clear (h.sole hi hlive) hnot hundone
    simp only [Lifecycle.perform]
    split
    · split
      · exact h
      · exact hpassed
    · exact hpassed
  | snapshot other records kind => exact h
  | beginApply other position =>
    obtain rfl : other = id := Option.some.inj habout
    obtain ⟨hi, ⟨_, hrunning, hstarted, hno⟩, hnot⟩ := howes
    exact h.perform_deed hlive hseen hi hnot ((h.rolling hrunning).note_apply hrunning hstarted hno rfl)
      (fun _ ↦ .inr hno) fun heq ↦ by cases heq
  | endApply other position =>
    obtain rfl : other = id := Option.some.inj habout
    obtain ⟨hi, ⟨_, hrunning, hstarted, hno⟩, hnot⟩ := howes
    cases choice with
    | ok output =>
      exact h.perform_deed hlive hseen hi hnot
        ((h.rolling hrunning).note_apply hrunning hstarted hno rfl) (fun _ ↦ .inr hno)
        fun heq ↦ by cases heq
    | error why =>
      exact h.perform_deed hlive hseen hi hnot
        ((h.rolling hrunning).note_apply hrunning hstarted hno rfl) (fun _ ↦ .inr hno)
        fun heq ↦ by cases heq
  | beginUndo other position =>
    obtain rfl : other = id := Option.some.inj habout
    obtain ⟨hi, ⟨hstarted, hopen, horder⟩, hnot, hundone⟩ := howes
    refine h.perform_deed hlive hseen hi hnot ?_ (fun hstands ↦ by cases hstands) fun _ ↦ hundone
    exact (h.rolling_of_started hstarted).note_acted hstarted hopen (fun hstands ↦ by cases hstands)
      (fun hstands ↦ by cases hstands) fun _ ↦ horder
  | endUndo other position =>
    obtain rfl : other = id := Option.some.inj habout
    obtain ⟨hi, ⟨hstarted, hopen⟩, hnot⟩ := howes
    have hrolling := h.rolling_of_started hstarted
    cases choice with
    | ok output =>
      refine h.perform_deed hlive hseen hi hnot ?_ (fun _ ↦ .inl rfl) fun heq ↦ by cases heq
      exact hrolling.note_acted hstarted hopen (fun _ ↦ .inl rfl) (fun _ hne ↦ absurd rfl hne)
        fun heq ↦ by cases heq
    | error why =>
      -- The undo failed: the step stands as it did.
      refine h.perform_deed hlive hseen hi hnot ?_ (fun hstands ↦ by cases hstands)
        fun heq ↦ by cases heq
      exact hrolling.note_acted hstarted hopen (fun hstands ↦ by cases hstands)
        (fun hstands ↦ by cases hstands) fun heq ↦ by cases heq
  | commit other kind outputs =>
    obtain rfl : other = id := Option.some.inj habout
    obtain ⟨hi, ⟨_, hrunning, hno, happlied⟩, hnot⟩ := howes
    cases choice with
    | error why => exact h
    | ok output =>
      have hview := (perform_commit_open i kind outputs output hrunning).2
      have hkept := @perform_keeps w other i (.commit other kind outputs) (.ok output)
      refine h.perform_closed hseen hlive hi hnot hkept.1 hkept.2.1 hview (by simp) rfl (.inl ?_)
      rw [hview]
      exact (h.rolling hrunning).commit hrunning hno happlied

end Keeping

end Nodal.Lifecycle
