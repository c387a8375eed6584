import Nodal.Lifecycle.KeptOutputs

/-!
# The steps of a committed operation

An operation that reached `committed` should have every one of its steps in place. What was last
done about a step is an apply that succeeded, unless the process that committed the operation passed
the step over: it does so where the journal says the step is applied, and the journal says so too
where an undo of the step was started and its mark never written, because the process died before
it or because the undo failed.

`committed_all_applied_iff` says that this is the only way a step can be missing.
-/

set_option autoImplicit false

namespace Nodal.Lifecycle

open Nodal.Foundation

section Committed

variable {id : OperationId} {plan : Plan} {answers : ℕ → Output → Prop} {answer : ℕ → Output}
  {start : View} {process : Process} {w : World}

/-- The operation is committed, and about every step the same was last done as in `reference`. -/
structure SettledAs (reference v : View) : Prop where
  committed : v.state = some .committed
  deeds : ∀ position, lastDeed v.log position = lastDeed reference.log position

theorem SettledAs.allApplied_iff {reference v : View} (h : SettledAs reference v) :
    AllApplied plan v ↔ AllApplied plan reference := by
  simp only [AllApplied, h.deeds]

/-- Once an operation is committed, no effect that is owed touches it. -/
theorem SettledAs.perform {reference : View} {effect : Effect} {choice : effect.Choice}
    (h : SettledAs reference (w.view id)) (habout : About id effect)
    (howed : Owed plan answers answer start effect (w.view id)) :
    SettledAs reference ((perform process effect choice w).2.view id) := by
  have hnot : (w.view id).state ≠ some .running := by simp [h.committed]
  cases effect with
  | start other plan' => exact absurd howed (View.row_ne_none h.committed)
  | markStep other mark => exact absurd howed.1 hnot
  | finish other state =>
    obtain rfl : other = id := Option.some.inj habout
    rw [perform_finish_closed state choice hnot]
    exact h
  | reopen other =>
    obtain rfl : other = id := Option.some.inj habout
    rw [perform_reopen_other choice (by simp [h.committed])]
    exact h
  | steps other => exact h
  | unfinished => exact h
  | isRunning other pid => exact absurd howed hnot
  | rebuild rebuilders record => exact absurd howed hnot
  | snapshot other records kind => exact h
  | beginApply other position => exact absurd howed.1 hnot
  | endApply other position => exact absurd howed.1 hnot
  | beginUndo other position => exact absurd howed hnot
  | endUndo other position => exact absurd howed hnot
  | commit other kind outputs => exact absurd howed.1 hnot

variable {c₀ c c' : Stage} {label : Happening} {labels : List Happening}

/-- A history in order, at a point where the operation is settled. -/
private theorem settled_next {reference : View} (hP : InOrder id plan answers c label)
    (hnext : machine.next c label = some c')
    (hc : Passing id plan answers answer c)
    (h : SettledAs reference (c.world.view id)) : SettledAs reference (c'.world.view id) := by
  cases label with
  | enter process job =>
    obtain ⟨_, world, hworld, rfl⟩ := Machine.next_enter_eq_some.mp hnext
    have hview : world.view id = c.world.view id := view_arrive hworld
    exact hview ▸ h
  | act process choice =>
    obtain ⟨effect, rest, hrunning, rfl⟩ := Machine.next_act_eq_some.mp hnext
    rcases hc with ⟨hidle, _⟩ | ⟨found, other, honly, hinv, p, hp, hsafe⟩
    · rw [hidle] at hrunning
      cases hrunning
    · obtain rfl : process = other := by
        by_contra hne
        rw [honly process hne] at hrunning
        cases hrunning
      obtain rfl : p = .perform effect rest := Option.some.inj (hp.symm.trans hrunning)
      obtain ⟨hpre, _⟩ := hsafe c.world rfl hinv
      by_cases habout : About id effect
      · exact h.perform habout (hpre habout)
      · change SettledAs reference ((perform process effect _ c.world).2.view id)
        rw [view_perform_of_ne habout]
        exact h
  | leave process =>
    obtain ⟨_, _, rfl⟩ := Machine.next_leave_eq_some.mp hnext
    exact h

/-- Once an operation is committed, nothing more is done about it. Assumes: the history is in order
and orderly where the operation is settled. -/
theorem settled_exec {reference : View} (halong : machine.Along (InOrder id plan answers) c labels)
    (hexec : machine.exec c labels = some c')
    (hc : Passing id plan answers answer c)
    (h : SettledAs reference (c.world.view id)) : SettledAs reference (c'.world.view id) := by
  have hstep : ∀ c label c', InOrder id plan answers c label → machine.next c label = some c' →
      Passing id plan answers answer c ∧ SettledAs reference (c.world.view id) →
      Passing id plan answers answer c' ∧ SettledAs reference (c'.world.view id) :=
    fun c label c' hP hnext hc ↦
      ⟨passSound.orderly_next hP hnext hc.1, settled_next hP hnext hc.1 hc.2⟩
  exact (Machine.exec_induction hstep halong hexec ⟨hc, h⟩).2

/-- A step that commits an operation is an effect of a live process. -/
private theorem act_of_commits (hnext : machine.next c label = some c')
    (hopen : (c.world.view id).state ≠ some .committed)
    (hcommitted : (c'.world.view id).state = some .committed) :
    ∃ process choice, label = .act process choice ∧ c.running process ≠ none := by
  cases label with
  | enter process job =>
    obtain ⟨_, world, hworld, rfl⟩ := Machine.next_enter_eq_some.mp hnext
    have hview : world.view id = c.world.view id := view_arrive hworld
    exact absurd (hview ▸ hcommitted) hopen
  | act process choice =>
    obtain ⟨_, _, hrunning, _⟩ := Machine.next_act_eq_some.mp hnext
    exact ⟨process, choice, rfl, by simp [hrunning]⟩
  | leave process =>
    obtain ⟨_, _, rfl⟩ := Machine.next_leave_eq_some.mp hnext
    exact absurd hcommitted hopen

/-- In a history that ends with the operation committed, one session committed it, and every step of
the plan was last applied, by an apply that succeeded, exactly when no step that the journal had as
applied when that session began had an undo started since. Assumes: a history of one process at a
time, in which nothing was done about the operation before. -/
theorem committed_all_applied_iff (hidle : Idle c₀) (huntouched : Untouched id c₀.world)
    (halong : machine.Along (InOrder id plan answers) c₀ labels)
    (hexec : machine.exec c₀ labels = some c)
    (hcommitted : (c.world.view id).state = some .committed) :
    ∃ before process job after rest c₁ c₂,
      labels = (before ++ .enter process job :: after) ++ rest ∧
      (∀ label ∈ after, ∃ choice, label = .act process choice) ∧
      machine.exec c₀ before = some c₁ ∧ (c₁.world.view id).state ≠ some .committed ∧
      machine.exec c₀ (before ++ .enter process job :: after) = some c₂ ∧
      (c₂.world.view id).state = some .committed ∧
      (AllApplied plan (c.world.view id) ↔ Intact plan (c₁.world.view id)) := by
  induction labels using List.reverseRec generalizing c with
  | nil =>
    obtain rfl : c₀ = c := Option.some.inj hexec
    rw [show c₀.world.view id = ⟨none, ∅, []⟩ from huntouched] at hcommitted
    cases hcommitted
  | append_singleton labels label ih =>
    obtain ⟨hfirst, hlast⟩ := Machine.along_append.mp halong
    obtain ⟨c', hc', hnext⟩ := exec_concat_eq_some.mp hexec
    have hpassing := passSound.orderly_exec hfirst hc'
      (passing_of_idle (fun _ ↦ .null) hidle huntouched)
    by_cases hbefore : (c'.world.view id).state = some .committed
    · obtain ⟨before, process, job, after, rest, c₁, c₂, rfl, hacts, hc₁, hopen, hc₂, hdone, hiff⟩ :=
        ih hfirst hc' hbefore
      refine ⟨before, process, job, after, rest ++ [label], c₁, c₂, by simp, hacts, hc₁, hopen, hc₂,
        hdone, ?_⟩
      have hsettled := settled_next (hlast c' hc').1 hnext hpassing
        (⟨hbefore, fun _ ↦ rfl⟩ : SettledAs (c'.world.view id) (c'.world.view id))
      rw [hsettled.allApplied_iff, hiff]
    · obtain ⟨process, choice, rfl, hrunning⟩ := act_of_commits hnext hbefore hcommitted
      obtain ⟨before, job, after, rfl, hacts⟩ :=
        session_of_running (hfirst.mono fun _ _ h ↦ h.1) hidle hc' hrunning
      obtain ⟨c₁, hc₁, hsession⟩ := Machine.exec_append_eq_some.mp hc'
      obtain ⟨halong₁, halong₂⟩ := Machine.along_append.mp hfirst
      have hopen : (c₁.world.view id).state ≠ some .committed := by
        intro hearly
        have hsettled := settled_exec (halong₂ c₁ hc₁) hsession (passSound.orderly_exec halong₁ hc₁
          (passing_of_idle (fun _ ↦ .null) hidle huntouched))
          (⟨hearly, fun _ ↦ rfl⟩ : SettledAs (c₁.world.view id) (c₁.world.view id))
        exact hbefore hsettled.committed
      have hsplit : (before ++ .enter process job :: after) ++ [.act process choice] =
          before ++ .enter process job :: (after ++ [.act process choice]) := by simp
      have hacts' : ∀ label ∈ after ++ [.act process choice], ∃ choice,
          label = .act process choice := fun label hlabel ↦ by
        rcases List.mem_append.mp hlabel with hlabel | hlabel
        · exact hacts label hlabel
        · exact ⟨choice, List.mem_singleton.mp hlabel⟩
      rw [hsplit] at halong hexec
      obtain ⟨found, hfound, _, hinv, _⟩ := last_session (fun _ ↦ .null) hidle huntouched halong
        hacts' hc₁ hexec
      refine ⟨before, process, job, after ++ [.act process choice], [], c₁, c, by simp, hacts', hc₁,
        hopen, hexec, hcommitted, ?_⟩
      exact hfound ▸ hinv.settled (hfound ▸ hopen) hcommitted

end Committed

/-! ### A committed operation with a step missing -/

/-- The registry write fails, and the process dies after the install was taken back and before that
was written down. -/
def diedUndoing : Session Process Job Effect Effect.Choice :=
  sitting (nth 1) (.run 0 build) 13
    (choosing (.ok build) (fun _ ↦ .ok .null) (fun _ ↦ .ok ()) (.error "disk full"))

/-- The next process resolves it. -/
def resolvedAfter : Session Process Job Effect Effect.Choice :=
  sitting (nth 2) (.resolve ["build"]) 6 (failingOn fun _ ↦ false)

private theorem along_diedUndoing : machine.Along (InOrder 0 build fun _ _ ↦ True) beginning
    ([diedUndoing].flatMap Session.complete ++ resolvedAfter.steps) := by
  refine (alone_sessions fun _ ↦ rfl).and fun label hlabel ↦ ?_
  rcases List.mem_append.mp hlabel with hlabel | hlabel
  · rw [List.flatMap_singleton] at hlabel
    exact follows_sitting follows_run (follows_choosing (fun plan' h ↦ (Except.ok.inj h).symm)
      fun _ _ _ ↦ trivial) label hlabel
  · exact follows_sitting follows_resolve (follows_choosing
      (fun plan' h ↦ (Except.ok.inj h).symm) fun _ _ _ ↦ trivial) label
      (List.mem_append_left _ hlabel)

private theorem exec_diedUndoing : ∃ c,
    machine.exec beginning ([diedUndoing].flatMap Session.complete ++ resolvedAfter.steps) = some c ∧
      (c.world.view 0).state = some .committed ∧ ¬AllApplied build (c.world.view 0) := by
  have hexec : (machine.exec beginning ([diedUndoing].flatMap Session.complete ++
      resolvedAfter.steps)).map (fun c ↦ ((c.world.view 0).state,
        lastDeed (c.world.view 0).log 1)) = some (some .committed, some .undone) := by
    decide +kernel
  obtain ⟨c, hc, hview⟩ := Option.map_eq_some_iff.mp hexec
  obtain ⟨hstate, hdeed⟩ := Prod.mk.inj hview
  refine ⟨c, hc, hstate, fun hall ↦ ?_⟩
  rw [hall 1 (by decide)] at hdeed
  cases hdeed

/-- An operation can be committed with a step taken back. -/
theorem committed_step_undone : ∃ c,
    machine.Along (InOrder 0 build fun _ _ ↦ True) beginning
      ([diedUndoing].flatMap Session.complete ++ resolvedAfter.steps) ∧
    machine.exec beginning ([diedUndoing].flatMap Session.complete ++ resolvedAfter.steps) = some c ∧
    (c.world.view 0).state = some .committed ∧ ¬AllApplied build (c.world.view 0) := by
  obtain ⟨c, hexec, hstate, hnot⟩ := exec_diedUndoing
  exact ⟨c, along_diedUndoing, hexec, hstate, hnot⟩

/-- `committed_all_applied_iff` at that history: the process that committed found a step whose undo
had been started. -/
theorem committed_all_applied_iff_diedUndoing : ∃ before process job after c₁,
    before ++ .enter process job :: after <+:
      [diedUndoing].flatMap Session.complete ++ resolvedAfter.steps ∧
    machine.exec beginning before = some c₁ ∧ ¬Intact build (c₁.world.view 0) := by
  obtain ⟨c, hexec, hstate, hnot⟩ := exec_diedUndoing
  obtain ⟨before, process, job, after, rest, c₁, _, hlabels, _, hc₁, _, _, _, hiff⟩ :=
    committed_all_applied_iff (fun _ ↦ rfl) untouched_beginning along_diedUndoing hexec hstate
  exact ⟨before, process, job, after, c₁, ⟨rest, hlabels.symm⟩, hc₁, fun h ↦ hnot (hiff.mpr h)⟩

end Nodal.Lifecycle
