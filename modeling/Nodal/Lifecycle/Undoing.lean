import Nodal.Lifecycle.History

/-!
# What a rollback leaves in the log

The facts about a rolling-back operation that hold in every gap between a change to the world and
the journal row that records it, whoever is inside the operation and wherever it died. `RollingBack`
collects them; `Allowed` is what a process may do without breaking them, and `RollingBack.perform`
says so.

A step is started when the journal writes it down as being attempted. Where a step stands is what
was last done about it, an undo that was only begun or that failed left aside (`standing`).
-/

set_option autoImplicit false

namespace Nodal.Lifecycle

open Nodal.Foundation

/-! ### Reading the log -/

/-- The log of a run. -/
abbrev Log := List (Process × Event)

/-- A deed that says where a step stands: not the beginning of an undo, and not one that failed. -/
def Deed.stands : Deed → Bool
  | undoing | undoFailed => false
  | applying | applied | applyFailed | undone => true

/-- The deed that says where a step stands. -/
def standing (log : Log) (position : ℕ) : Option Deed :=
  log.findSome? fun entry ↦ (entry.2.deedAt position).filter Deed.stands

/-- The step was written down as being attempted. -/
def Started (log : Log) (position : ℕ) : Prop :=
  ∃ process mark, (process, .marked mark) ∈ log ∧ mark.position = position ∧ mark.state = .applying

/-- No undo was ever begun. -/
def NoUndo (log : Log) : Prop :=
  ∀ process position deed, (process, .acted position deed) ∈ log → deed.isUndo = false

/-- The step whose undo an event begins. -/
def Event.undoing? : Event → Option ℕ
  | acted position .undoing => some position
  | _ => none

/-- Whether an event is a registry write. -/
def Event.isCommit : Event → Bool
  | committed _ => true
  | _ => false

/-- The registry writes of a run. -/
def commits (log : Log) : ℕ := log.countP fun entry ↦ entry.2.isCommit

/-- What one process did, newest first. -/
def own (process : Process) (log : Log) : Log := log.filter fun entry ↦ entry.1 = process

/-- The steps whose undo one process began, newest first. -/
def undoings (process : Process) (log : Log) : List ℕ :=
  (own process log).filterMap fun entry ↦ entry.2.undoing?

section Reading

variable {log : Log} {process other : Process} {event : Event} {position : ℕ}

theorem standing_cons : standing ((process, event) :: log) position =
    ((event.deedAt position).filter Deed.stands).or (standing log position) := by
  simp only [standing, List.findSome?_cons]
  cases (event.deedAt position).filter Deed.stands <;> rfl

theorem standing_of_deedAt (h : (event.deedAt position).filter Deed.stands = none) :
    standing ((process, event) :: log) position = standing log position := by
  rw [standing_cons, h, Option.none_or]

theorem standing_acted {deed : Deed} (h : deed.stands = true) :
    standing ((process, .acted position deed) :: log) position = some deed := by
  simp [standing_cons, Event.deedAt, Option.filter, h]

theorem standing_acted_of_ne {deed : Deed} {other : ℕ} (h : other ≠ position) :
    standing ((process, .acted other deed) :: log) position = standing log position :=
  standing_of_deedAt (by simp [Event.deedAt, h])

theorem started_cons : Started ((process, event) :: log) position ↔
    (∃ mark, event = .marked mark ∧ mark.position = position ∧ mark.state = .applying) ∨
      Started log position := by
  simp only [Started, List.mem_cons, Prod.mk.injEq]
  constructor
  · rintro ⟨other, mark, ⟨_, hevent⟩ | hmem, hmark⟩
    · exact .inl ⟨mark, hevent.symm, hmark⟩
    · exact .inr ⟨other, mark, hmem, hmark⟩
  · rintro (⟨mark, rfl, hmark⟩ | ⟨other, mark, hmem, hmark⟩)
    · exact ⟨process, mark, .inl ⟨rfl, rfl⟩, hmark⟩
    · exact ⟨other, mark, .inr hmem, hmark⟩

theorem started_of_plain (h : ∀ mark, event ≠ .marked mark) :
    Started ((process, event) :: log) position ↔ Started log position := by
  rw [started_cons]
  constructor
  · rintro (⟨mark, hevent, _⟩ | hstarted)
    · exact absurd hevent (h mark)
    · exact hstarted
  · exact .inr

theorem noUndo_cons : NoUndo ((process, event) :: log) ↔
    (∀ position deed, event = .acted position deed → deed.isUndo = false) ∧ NoUndo log := by
  simp only [NoUndo, List.mem_cons, Prod.mk.injEq]
  constructor
  · intro h
    refine ⟨fun position deed hevent ↦ h process position deed (.inl ⟨rfl, hevent.symm⟩), ?_⟩
    exact fun other position deed hmem ↦ h other position deed (.inr hmem)
  · rintro ⟨hevent, hlog⟩ other position deed (⟨_, heq⟩ | hmem)
    · exact hevent position deed heq.symm
    · exact hlog other position deed hmem

theorem commits_cons : commits ((process, event) :: log) =
    commits log + if event.isCommit then 1 else 0 := by
  simp [commits, List.countP_cons]

theorem own_cons : own other ((process, event) :: log) =
    if process = other then (process, event) :: own other log else own other log := by
  by_cases h : process = other
  · simp [own, h]
  · simp [own, h]

theorem own_cons_of_ne (h : process ≠ other) :
    own other ((process, event) :: log) = own other log := by
  rw [own_cons, if_neg h]

theorem undoings_of_own {log' : Log} (h : own other log' = own other log) :
    undoings other log' = undoings other log := by
  rw [undoings, h, undoings]

theorem undoings_cons : undoings other ((process, event) :: log) =
    if process = other then (event.undoing?).toList ++ undoings other log
    else undoings other log := by
  rw [undoings, own_cons]
  by_cases h : process = other
  · rw [if_pos h, if_pos h, List.filterMap_cons]
    cases event.undoing? <;> rfl
  · rw [if_neg h, if_neg h, undoings]

theorem undoings_of_plain (h : event.undoing? = none) :
    undoings other ((process, event) :: log) = undoings other log := by
  rw [undoings_cons, h]
  split <;> rfl

theorem mem_of_standing {deed : Deed} (h : standing log position = some deed) :
    ∃ process, (process, .acted position deed) ∈ log := by
  obtain ⟨⟨process, event⟩, hmem, hdeed⟩ := List.exists_of_findSome?_eq_some h
  obtain ⟨hdeed, _⟩ := Option.filter_eq_some_iff.mp hdeed
  cases event with
  | acted other deed' =>
    simp only [Event.deedAt] at hdeed
    split at hdeed
    · rename_i heq
      exact ⟨process, heq ▸ Option.some.inj hdeed ▸ hmem⟩
    · cases hdeed
  | _ => cases hdeed

/-- Where no undo was begun, what was last done about a step says where it stands. -/
theorem lastDeed_of_standing (hno : NoUndo log) :
    lastDeed log position = standing log position := by
  induction log with
  | nil => rfl
  | cons entry log ih =>
    obtain ⟨process, event⟩ := entry
    obtain ⟨hevent, hno⟩ := noUndo_cons.mp hno
    rw [lastDeed_cons, standing_cons, ih hno]
    cases hdeed : event.deedAt position with
    | none => rfl
    | some deed =>
      have hback : deed.isUndo = false := by
        cases event with
        | acted other deed' =>
          simp only [Event.deedAt] at hdeed
          split at hdeed
          · exact Option.some.inj hdeed ▸ hevent other deed' rfl
          · cases hdeed
        | _ => cases hdeed
      have hstands : deed.stands = true := by cases deed <;> first | rfl | cases hback
      simp [Option.filter, hstands]

end Reading

/-! ### The invariant -/

/-- What holds of an operation that rolls back, at every point. -/
structure RollingBack (plan : Plan) (v : View) : Prop where
  recovery : ∀ row, v.row = some row → row.recovery = .rollBack
  rows : ∀ position, Started v.log position ↔ v.steps.get? position ≠ none
  placed : ∀ position row, v.steps.get? position = some row → row.position = position
  within : ∀ position, Started v.log position → position < plan.steps.length
  acted : ∀ process position deed, (process, .acted position deed) ∈ v.log →
    Started v.log position
  undone : ∀ position row, v.steps.get? position = some row → row.state = .undone →
    standing v.log position = some .undone
  notFailed : v.state ≠ some .failed
  committed : v.state = some .committed → NoUndo v.log ∧
    ∀ position < plan.steps.length, standing v.log position = some .applied
  written : commits v.log = if v.state = some .committed then 1 else 0
  rolledBack : v.state = some .rolledBack → ∀ position, Started v.log position →
    standing v.log position = some .undone
  ordered : ∀ process, (undoings process v.log).Pairwise (· < ·)

/-- What a process may do about an operation that rolls back: only the process that runs the plan
applies and writes the registry, an undo is begun in order and of a step that was started, and the
row is closed where every step that was started is undone. -/
def Allowed (plan : Plan) (runs : Prop) (process : Process) (effect : Effect) (v : View) : Prop :=
  match effect with
  | .start _ plan' => runs ∧ v = ⟨none, ∅, []⟩ ∧ plan'.recovery = .rollBack
  | .markStep _ mark =>
    match mark.state with
    | .applying => runs ∧ v.state = some .running ∧ mark.position < plan.steps.length
    | .applied => runs ∧ v.state = some .running ∧ Started v.log mark.position
    | .undone => standing v.log mark.position = some .undone ∧ Started v.log mark.position
  | .finish _ state => state = .rolledBack ∧ ∀ position, Started v.log position →
      standing v.log position = some .undone
  | .reopen _ => False
  | .beginApply _ position | .endApply _ position =>
    runs ∧ v.state = some .running ∧ Started v.log position ∧ NoUndo v.log
  | .beginUndo _ position => Started v.log position ∧ v.state ≠ some .committed ∧
      ∀ earlier ∈ undoings process v.log, position < earlier
  | .endUndo _ position => Started v.log position ∧ v.state ≠ some .committed
  | .commit _ _ _ => runs ∧ v.state = some .running ∧ NoUndo v.log ∧
      ∀ position < plan.steps.length, standing v.log position = some .applied
  | _ => True

/-- What the outside chooses about the operation where it rolls back without trouble: no undo fails,
no record of a home fails, and what is rebuilt is the plan. -/
def Cooperates (id : OperationId) (plan : Plan) : (effect : Effect) → effect.Choice → Prop
  | .endUndo other _, choice => other = id → ∀ why, choice ≠ .error why
  | .snapshot other _ _, choice => other = id → ∀ why, choice ≠ .error why
  | .rebuild _ record, choice => record.id = id → ∀ plan', choice = .ok plan' → plan' = plan
  | _, _ => True

section Keeping

variable {id : OperationId} {plan : Plan} {runs : Prop} {v : View} {process : Process}
  {event : Event}

/-- An event that is neither a mark nor a deed nor a registry write. -/
theorem RollingBack.note_plain (h : RollingBack plan v) (hmark : ∀ mark, event ≠ .marked mark)
    (hdeed : ∀ position deed, event ≠ .acted position deed) (hcommit : event.isCommit = false) :
    RollingBack plan (v.note process event) := by
  have hnone : ∀ position, event.deedAt position = none := fun position ↦ by
    cases event with
    | acted other deed => exact absurd rfl (hdeed other deed)
    | _ => rfl
  have hundoing : event.undoing? = none := by
    cases event with
    | acted other deed => exact absurd rfl (hdeed other deed)
    | _ => rfl
  have hstanding : ∀ position, standing (v.note process event).log position =
      standing v.log position := fun position ↦ standing_of_deedAt (by rw [hnone]; rfl)
  have hstarted : ∀ position, Started (v.note process event).log position ↔
      Started v.log position := fun position ↦ started_of_plain hmark
  refine ⟨h.recovery, fun position ↦ (hstarted position).trans (h.rows position), h.placed,
    fun position hstart ↦ h.within position ((hstarted position).mp hstart), ?_, ?_, h.notFailed,
    fun hstate ↦ ?_, ?_, fun hstate position hstart ↦ ?_, fun other ↦ ?_⟩
  · intro other position deed hmem
    rcases List.mem_cons.mp hmem with heq | hmem
    · exact absurd (Prod.mk.inj heq).2.symm (hdeed position deed)
    · exact (hstarted position).mpr (h.acted other position deed hmem)
  · intro position row hrow hstate
    rw [hstanding]
    exact h.undone position row hrow hstate
  · obtain ⟨hno, happlied⟩ := h.committed hstate
    refine ⟨noUndo_cons.mpr ⟨fun position deed heq ↦ absurd heq (hdeed position deed), hno⟩, ?_⟩
    exact fun position hlt ↦ (hstanding position).trans (happlied position hlt)
  · rw [View.note_log, commits_cons, hcommit]
    exact h.written
  · rw [hstanding]
    exact h.rolledBack hstate position ((hstarted position).mp hstart)
  · rw [View.note_log, undoings_of_plain hundoing]
    exact h.ordered other

/-- A deed about a step that was started. A deed that says where the step stands either leaves it
undone or is made while the row is `running`, and an undo is begun below the ones before it. -/
theorem RollingBack.note_acted {position : ℕ} {deed : Deed} (h : RollingBack plan v)
    (hstarted : Started v.log position) (hopen : v.state ≠ some .committed)
    (hstands : deed.stands = true → deed = .undone ∨ v.state = some .running)
    (hundone : deed.stands = true → deed ≠ .undone → ∀ row,
      v.steps.get? position = some row → row.state ≠ .undone)
    (horder : deed = .undoing → ∀ earlier ∈ undoings process v.log, position < earlier) :
    RollingBack plan (v.note process (.acted position deed)) := by
  have hstart : ∀ other, Started (v.note process (.acted position deed)).log other ↔
      Started v.log other := fun other ↦ started_of_plain (by simp)
  have hkeeps : ∀ other, other ≠ position ∨ deed.stands = false →
      standing (v.note process (.acted position deed)).log other = standing v.log other := by
    rintro other (hne | hfalse)
    · exact standing_acted_of_ne hne.symm
    · refine standing_of_deedAt ?_
      by_cases heq : position = other
      · simp [Event.deedAt, heq, Option.filter, hfalse]
      · simp [Event.deedAt, heq]
  refine ⟨h.recovery, fun other ↦ (hstart other).trans (h.rows other), h.placed,
    fun other hother ↦ h.within other ((hstart other).mp hother), ?_, ?_, h.notFailed,
    fun hstate ↦ absurd hstate hopen, ?_, fun hstate other hother ↦ ?_, fun other ↦ ?_⟩
  · intro other position' deed' hmem
    rw [hstart]
    rcases List.mem_cons.mp hmem with heq | hmem
    · cases (Prod.mk.inj heq).2
      exact hstarted
    · exact h.acted other position' deed' hmem
  · intro other row hrow hstate
    by_cases hkeep : other ≠ position ∨ deed.stands = false
    · rw [hkeeps other hkeep]
      exact h.undone other row hrow hstate
    · obtain ⟨heq, hstand⟩ := not_or.mp hkeep
      obtain rfl : other = position := not_not.mp heq
      rw [Bool.not_eq_false] at hstand
      by_cases hdeed : deed = .undone
      · subst hdeed
        exact standing_acted rfl
      · exact absurd hstate (hundone hstand hdeed row hrow)
  · rw [View.note_log, commits_cons]
    exact h.written
  · by_cases hkeep : other ≠ position ∨ deed.stands = false
    · rw [hkeeps other hkeep]
      exact h.rolledBack hstate other ((hstart other).mp hother)
    · obtain ⟨heq, hstand⟩ := not_or.mp hkeep
      obtain rfl : other = position := not_not.mp heq
      rw [Bool.not_eq_false] at hstand
      rcases hstands hstand with rfl | hrunning
      · exact standing_acted rfl
      · rw [View.note_state, hrunning] at hstate
        cases hstate
  · rw [View.note_log, undoings_cons]
    split
    · rename_i heq
      subst heq
      by_cases hdeed : deed = .undoing
      · subst hdeed
        exact List.pairwise_cons.mpr ⟨horder rfl, h.ordered process⟩
      · have hnone : (Event.acted position deed).undoing? = none := by
          cases deed <;> first | rfl | exact absurd rfl hdeed
        rw [hnone]
        exact h.ordered process
    · exact h.ordered other

/-- A deed of an apply, while nothing was taken back. -/
theorem RollingBack.note_apply {position : ℕ} {deed : Deed} (h : RollingBack plan v)
    (hrunning : v.state = some .running) (hstarted : Started v.log position)
    (hno : NoUndo v.log) (hdeed : deed.isUndo = false) :
    RollingBack plan (v.note process (.acted position deed)) := by
  refine h.note_acted hstarted (by simp [hrunning]) (fun _ ↦ .inr hrunning) ?_ ?_
  · intro _ _ row hrow hstate
    obtain ⟨other, hmem⟩ := mem_of_standing (h.undone position row hrow hstate)
    cases hno other position .undone hmem
  · rintro rfl
    cases hdeed

/-- A mark: of a step being attempted or applied while the row is `running`, or of one that stands
undone. -/
theorem RollingBack.markStep {mark : StepRecord} (h : RollingBack plan v)
    (hallowed : Allowed plan runs process (.markStep id mark) v) :
    RollingBack plan ((v.markStep mark).note process (.marked mark)) := by
  have hstanding : ∀ position, standing ((v.markStep mark).note process (.marked mark)).log
      position = standing v.log position := fun position ↦ standing_of_deedAt rfl
  have hplain : mark.state ≠ .applying → Started v.log mark.position := by
    intro hstate
    simp only [Allowed] at hallowed
    cases hmark : mark.state with
    | applying => exact absurd hmark hstate
    | applied => exact (hmark ▸ hallowed).2.2
    | undone => exact (hmark ▸ hallowed).2
  have hstarted : ∀ position, Started ((v.markStep mark).note process (.marked mark)).log position ↔
      position = mark.position ∨ Started v.log position := by
    intro position
    rw [View.note_log, started_cons, View.markStep_log]
    constructor
    · rintro (⟨mark', heq, hposition, _⟩ | hstarted)
      · cases heq
        exact .inl hposition.symm
      · exact .inr hstarted
    · rintro (rfl | hstarted)
      · by_cases hstate : mark.state = .applying
        · exact .inl ⟨mark, rfl, rfl, hstate⟩
        · exact .inr (hplain hstate)
      · exact .inr hstarted
  have hundo : mark.state = .undone → standing v.log mark.position = some .undone := by
    intro hstate
    simp only [Allowed, hstate] at hallowed
    exact hallowed.1
  have hclosed : ∀ state, v.state = some state → state ≠ .running →
      mark.state = .undone := by
    intro state hstate hne
    cases hmark : mark.state with
    | undone => rfl
    | applying =>
      simp only [Allowed, hmark, hstate, Option.some.injEq] at hallowed
      exact absurd hallowed.2.1 hne
    | applied =>
      simp only [Allowed, hmark, hstate, Option.some.injEq] at hallowed
      exact absurd hallowed.2.1 hne
  have hwithin : mark.position < plan.steps.length := by
    by_cases hstate : mark.state = .applying
    · simp only [Allowed, hstate] at hallowed
      exact hallowed.2.2
    · exact h.within _ (hplain hstate)
  refine ⟨h.recovery, fun position ↦ ?_, fun position row hrow ↦ ?_, fun position hstart ↦ ?_, ?_,
    ?_, h.notFailed, fun hstate ↦ ?_, ?_, fun hstate position hstart ↦ ?_, fun other ↦ ?_⟩
  · rw [hstarted, View.note_steps, View.get?_markStep, h.rows]
    by_cases hposition : position = mark.position
    · simp [hposition]
    · simp [hposition]
  · rw [View.note_steps, View.get?_markStep] at hrow
    split at hrow
    · rename_i hposition
      exact Option.some.inj hrow ▸ hposition.symm
    · exact h.placed position row hrow
  · rcases (hstarted position).mp hstart with rfl | hstart
    · exact hwithin
    · exact h.within position hstart
  · intro other position deed hmem
    rcases List.mem_cons.mp hmem with heq | hmem
    · cases (Prod.mk.inj heq).2
    · exact (hstarted position).mpr (.inr (h.acted other position deed hmem))
  · intro position row hrow hstate
    rw [hstanding]
    rw [View.note_steps, View.get?_markStep] at hrow
    split at hrow
    · rename_i hposition
      subst hposition
      rw [← Option.some.inj hrow] at hstate
      exact hundo hstate
    · exact h.undone position row hrow hstate
  · obtain ⟨hno, happlied⟩ := h.committed hstate
    refine ⟨noUndo_cons.mpr ⟨fun _ _ heq ↦ (by cases heq), hno⟩, fun position hlt ↦ ?_⟩
    rw [hstanding]
    exact happlied position hlt
  · rw [View.note_log, commits_cons]
    exact h.written
  · rw [hstanding]
    rcases (hstarted position).mp hstart with rfl | hstart
    · exact hundo (hclosed .rolledBack hstate (by simp))
    · exact h.rolledBack hstate position hstart
  · rw [View.note_log, undoings_of_plain rfl]
    exact h.ordered other

/-- Moving the row: `committed` needs the registry write in the log. -/
theorem RollingBack.move {state : State} (h : RollingBack plan v)
    (hrunning : v.state = some .running) (hfailed : state ≠ .failed) (hopen : state ≠ .committed)
    (hback : state = .rolledBack → ∀ position, Started v.log position →
      standing v.log position = some .undone) : RollingBack plan (v.move state) := by
  have hmoved : (v.move state).state = some state := by
    simp [View.move_state, hrunning]
  refine ⟨fun row hrow ↦ ?_, h.rows, h.placed, h.within, h.acted, h.undone, ?_,
    fun hcommitted ↦ ?_, ?_, fun hstate ↦ ?_, h.ordered⟩
  · obtain ⟨old, hold, rfl⟩ := Option.map_eq_some_iff.mp hrow
    exact h.recovery old hold
  · simpa [hmoved] using hfailed
  · rw [hmoved] at hcommitted
    exact absurd (Option.some.inj hcommitted) hopen
  · have hwritten := h.written
    rw [hrunning] at hwritten
    simpa [hmoved, hopen] using hwritten
  · rw [hmoved] at hstate
    exact hback (Option.some.inj hstate)

/-- The registry write, where every step stands applied and nothing was taken back. -/
theorem RollingBack.commit {outputs : Outputs} (h : RollingBack plan v)
    (hrunning : v.state = some .running) (hno : NoUndo v.log)
    (happlied : ∀ position < plan.steps.length, standing v.log position = some .applied) :
    RollingBack plan ((v.move .committed).note process (.committed outputs)) := by
  have hmoved : ((v.move .committed).note process (.committed outputs)).state =
      some .committed := by
    simp [View.move_state, hrunning]
  have hstanding : ∀ position,
      standing ((v.move .committed).note process (.committed outputs)).log position =
        standing v.log position := fun position ↦ standing_of_deedAt rfl
  have hstarted : ∀ position,
      Started ((v.move .committed).note process (.committed outputs)).log position ↔
        Started v.log position := fun position ↦ started_of_plain (by simp)
  refine ⟨fun row hrow ↦ ?_, fun position ↦ (hstarted position).trans (h.rows position), h.placed,
    fun position hstart ↦ h.within position ((hstarted position).mp hstart), ?_, ?_,
    by simp [hmoved], fun _ ↦ ⟨noUndo_cons.mpr ⟨fun _ _ heq ↦ (by cases heq), hno⟩, ?_⟩, ?_, ?_,
    fun other ↦ ?_⟩
  · obtain ⟨old, hold, rfl⟩ := Option.map_eq_some_iff.mp hrow
    exact h.recovery old hold
  · intro other position deed hmem
    rw [hstarted]
    rcases List.mem_cons.mp hmem with heq | hmem
    · cases (Prod.mk.inj heq).2
    · exact h.acted other position deed hmem
  · intro position row hrow hstate
    rw [hstanding]
    exact h.undone position row hrow hstate
  · exact fun position hlt ↦ (hstanding position).trans (happlied position hlt)
  · have hwritten := h.written
    rw [hrunning] at hwritten
    rw [hmoved, View.note_log, commits_cons, View.move_log, hwritten]
    simp [Event.isCommit]
  · intro hstate
    rw [hmoved] at hstate
    cases hstate
  · rw [View.note_log, undoings_of_plain rfl]
    exact h.ordered other

/-- Opening a run that nothing was done about. -/
theorem RollingBack.start {id : OperationId} {plan' : Plan} (hrecovery : plan'.recovery = .rollBack) :
    RollingBack plan (View.note ⟨some (Journal.opened id plan' process.owner), ∅, []⟩ process
      .started) := by
  have hstarted : ∀ position, ¬Started [(process, Event.started)] position := by
    rintro position ⟨_, _, hmem, _⟩
    cases List.mem_singleton.mp hmem
  refine ⟨fun row hrow ↦ ?_, fun position ↦ ?_, fun position row hrow ↦ ?_,
    fun position hstart ↦ absurd hstart (hstarted position), ?_, ?_, ?_, ?_, ?_, ?_,
    fun other ↦ ?_⟩
  · cases hrow
    exact hrecovery
  · simp [hstarted]
  · simp at hrow
  · intro other position deed hmem
    cases List.mem_singleton.mp hmem
  · intro position row hrow
    simp at hrow
  · simp [View.state, Journal.opened]
  · simp [View.state, Journal.opened]
  · simp [View.state, Journal.opened, commits, Event.isCommit]
  · simp [View.state, Journal.opened]
  · rw [View.note_log, undoings_of_plain rfl]
    exact List.Pairwise.nil

/-- Nothing was done about an operation yet. -/
theorem RollingBack.untouched : RollingBack plan ⟨none, ∅, []⟩ := by
  have hstarted : ∀ position, ¬Started [] position := by
    rintro position ⟨_, _, hmem, _⟩
    cases hmem
  refine ⟨fun _ hrow ↦ (by cases hrow), fun position ↦ by simp [hstarted], fun position row hrow ↦ ?_,
    fun position hstart ↦ absurd hstart (hstarted position), ?_, ?_, by simp [View.state],
    by simp [View.state], by simp [View.state, commits], by simp [View.state],
    fun _ ↦ List.Pairwise.nil⟩
  · simp at hrow
  · intro other position deed hmem
    cases hmem
  · intro position row hrow
    simp at hrow

/-- What is allowed keeps the invariant. Assumes: no undo of the operation fails. -/
theorem RollingBack.perform {w : World} {effect : Effect} {choice : effect.Choice}
    (h : RollingBack plan (w.view id)) (habout : About id effect)
    (hallowed : Allowed plan runs process effect (w.view id))
    (hchoice : Cooperates id plan effect choice) :
    RollingBack plan ((perform process effect choice w).2.view id) := by
  cases effect with
  | start other plan' =>
    obtain rfl : other = id := Option.some.inj habout
    obtain ⟨_, huntouched, hrecovery⟩ := hallowed
    rw [view_start, huntouched]
    exact RollingBack.start hrecovery
  | markStep other mark =>
    obtain rfl : other = id := Option.some.inj habout
    rw [view_markStep]
    exact h.markStep hallowed
  | finish other state =>
    obtain rfl : other = id := Option.some.inj habout
    obtain ⟨rfl, hback⟩ := hallowed
    by_cases hrunning : (w.view other).state = some .running
    · rw [(perform_finish_open _ .rolledBack choice hrunning).2]
      exact (h.move hrunning (by simp) (by simp) fun _ ↦ hback).note_plain (by simp) (by simp) rfl
    · rw [perform_finish_closed .rolledBack choice hrunning]
      exact h
  | reopen other => exact hallowed.elim
  | steps other => exact h
  | unfinished => exact h
  | isRunning other pid =>
    obtain rfl : other = id := Option.some.inj habout
    simp only [Lifecycle.perform]
    split
    · exact h
    · rw [view_note_self]
      exact h.note_plain (by simp) (by simp) rfl
  | rebuild rebuilders record =>
    obtain rfl : record.id = id := Option.some.inj habout
    have hpassed : RollingBack plan ((w.note record.id process .passed).view record.id) := by
      rw [view_note_self]
      exact h.note_plain (by simp) (by simp) rfl
    simp only [Lifecycle.perform]
    split
    · split
      · exact h
      · exact hpassed
    · exact hpassed
  | snapshot other records kind => exact h
  | beginApply other position =>
    obtain rfl : other = id := Option.some.inj habout
    obtain ⟨_, hrunning, hstarted, hno⟩ := hallowed
    rw [Lifecycle.perform, view_note_self]
    exact h.note_apply hrunning hstarted hno rfl
  | endApply other position =>
    obtain rfl : other = id := Option.some.inj habout
    obtain ⟨_, hrunning, hstarted, hno⟩ := hallowed
    cases choice with
    | ok output =>
      rw [Lifecycle.perform, view_note_self]
      exact h.note_apply hrunning hstarted hno rfl
    | error why =>
      rw [Lifecycle.perform, view_note_self]
      exact h.note_apply hrunning hstarted hno rfl
  | beginUndo other position =>
    obtain rfl : other = id := Option.some.inj habout
    obtain ⟨hstarted, hopen, horder⟩ := hallowed
    rw [Lifecycle.perform, view_note_self]
    exact h.note_acted hstarted hopen (fun hstands ↦ by cases hstands)
      (fun hstands ↦ by cases hstands) fun _ ↦ horder
  | endUndo other position =>
    obtain rfl : other = id := Option.some.inj habout
    obtain ⟨hstarted, hopen⟩ := hallowed
    cases choice with
    | ok output =>
      rw [Lifecycle.perform, view_note_self]
      exact h.note_acted hstarted hopen (fun _ ↦ .inl rfl) (fun _ hne ↦ absurd rfl hne)
        fun heq ↦ by cases heq
    | error why => exact absurd rfl (hchoice rfl why)
  | commit other kind outputs =>
    obtain rfl : other = id := Option.some.inj habout
    obtain ⟨_, hrunning, hno, happlied⟩ := hallowed
    cases choice with
    | ok output =>
      rw [(perform_commit_open _ kind outputs output hrunning).2]
      exact h.commit hrunning hno happlied
    | error why => exact h

end Keeping

end Nodal.Lifecycle
