import Nodal.Foundation.Contract
import Nodal.Lifecycle.KeptOutputs
import Nodal.Lifecycle.Undoing

/-!
# Who is inside a run

A process is inside a run from the moment it starts it, reopens it or finds it, until the row leaves
`running` or the process passes the run on. A run should have one process inside it at a time, and
only that one should apply or undo its steps.

`reopen` writes the process that takes a run up again into the row, so that the next one sees it
alive. `resolve` does not: it reads the rows, asks later whether the owner it read is alive, and
works on the run under that owner's name. `one_process_inside` says what that leaves to chance. In
every interleaving in which each such question is asked while the row is still running under the
owner it is asked about, and nobody but that owner is inside, there is one process inside at a time.
-/

set_option autoImplicit false

namespace Nodal.Lifecycle

open Nodal.Foundation Nodal.Foundation.Attempt

/-! ### Inside -/

/-- The processes inside a run, as its log has it. -/
def insiders : Log → List Process
  | [] => []
  | (process, event) :: log =>
    match event with
    | .started | .reopened | .found => process :: insiders log
    | .passed => (insiders log).filter fun other ↦ other ≠ process
    | .closed _ | .committed _ => []
    | .marked _ | .acted _ _ => insiders log

/-- The call of a process has not returned. -/
def busy (c : Stage) (process : Process) : Bool :=
  match c.running process with
  | some (.perform _ _) => true
  | _ => false

/-- A process is inside a run. -/
def InRun (id : OperationId) (c : Stage) (process : Process) : Prop :=
  process ∈ insiders (c.world.log id) ∧ busy c process = true

/-- An effect that applies or undoes a step of a run. -/
def Acting (id : OperationId) : Effect → Prop
  | .beginApply other _ | .endApply other _ | .beginUndo other _ | .endUndo other _ => other = id
  | _ => False

/-- One process at a time is inside a run, and whoever is about to apply or undo a step is. -/
structure OneInside (id : OperationId) (c : Stage) : Prop where
  unique : ∀ i j, InRun id c i → InRun id c j → i = j
  acting : ∀ i effect next, c.running i = some (.perform effect next) → Acting id effect →
    InRun id c i

/-! ### What a process owes -/

/-- A process works on the run and closes it only from inside. -/
def insideContract (id : OperationId) : Contract Process World Effect Effect.Choice where
  inv w := (insiders (w.log id) ≠ [] → (w.view id).state = some .running) ∧
    ∀ process ∈ insiders (w.log id), process ∈ w.past
  rely i w w' := i ∈ insiders (w.log id) → i ∈ insiders (w'.log id)
  rely_refl _ _ h := h
  rely_trans _ _ _ _ h h' hi := h' (h hi)
  assume _ _ _ _ := True
  pre i effect w :=
    match effect with
    | .start other _ => other ≠ id
    | .markStep other _ | .finish other _ | .beginApply other _ | .endApply other _
    | .beginUndo other _ | .endUndo other _ | .commit other _ _ =>
      other = id → i ∈ insiders (w.log id)
    | _ => True

/-- What a process still does keeps the contract. -/
abbrev SafeInside {β : Type} (id : OperationId) (i : Process) (Q : β → World → Prop)
    (p : Program Effect Effect.Answer β) (w : World) : Prop :=
  Safe machine (insideContract id) i Q p w

/-- Nothing is owed any more. -/
abbrev Anything {β : Type} : β → World → Prop := fun _ _ ↦ True

section Rules

variable {id : OperationId} {plan : Plan} {i : Process} {w : World} {β : Type}

theorem safeInside_done {value : β} : SafeInside id i Anything (.done value) w :=
  fun _ _ _ ↦ trivial

/-- An effect that is owed nothing. -/
theorem safeInside_call {effect : Effect} {next : effect.Answer → Program Effect Effect.Answer β}
    {Q : β → World → Prop} (hpre : ∀ w, (insideContract id).pre i effect w)
    (hnext : ∀ t choice, SafeInside id i Q (next (perform i effect choice t).1)
      (perform i effect choice t).2) : SafeInside id i Q (.perform effect next) w :=
  fun t _ _ ↦ ⟨hpre t, fun choice _ ↦ hnext t choice⟩

/-- An effect of a process that is inside. -/
theorem safeInside_perform {effect : Effect} {next : effect.Answer → Program Effect Effect.Answer β}
    {Q : β → World → Prop} (hi : i ∈ insiders (w.log id))
    (hpre : ∀ w, i ∈ insiders (w.log id) → (insideContract id).pre i effect w)
    (hnext : ∀ t choice, i ∈ insiders (t.log id) → SafeInside id i Q
      (next (perform i effect choice t).1) (perform i effect choice t).2) :
    SafeInside id i Q (.perform effect next) w :=
  fun t ht _ ↦ ⟨hpre t (ht hi), fun choice _ ↦ hnext t choice (ht hi)⟩

/-- Working on a run leaves everybody inside who was. -/
theorem Working.insiders {effect : Effect} (h : Working id effect) (choice : effect.Choice) :
    insiders ((perform i effect choice w).2.log id) = insiders (w.log id) := by
  have hnote : ∀ (w : World) event, (∀ log, Lifecycle.insiders ((i, event) :: log) =
      Lifecycle.insiders log) →
      Lifecycle.insiders ((w.note id i event).log id) = Lifecycle.insiders (w.log id) := by
    intro w event hevent
    simp [World.note, hevent]
  cases effect with
  | markStep other step =>
    obtain rfl : other = id := h
    exact hnote _ _ fun _ ↦ rfl
  | steps other => rfl
  | beginApply other position | beginUndo other position =>
    obtain rfl : other = id := h
    exact hnote _ _ fun _ ↦ rfl
  | endApply other position | endUndo other position =>
    obtain rfl : other = id := h
    cases choice <;> exact hnote _ _ fun _ ↦ rfl
  | _ => exact h.elim

/-- A pass of a process that is inside stays inside. -/
theorem safeInside_working {p : Program Effect Effect.Answer β} (huses : p.Uses (Working id))
    (hi : i ∈ insiders (w.log id)) :
    SafeInside id i (fun _ t ↦ i ∈ insiders (t.log id)) p w := by
  refine safe_of_uses (F := fun t ↦ i ∈ insiders (t.log id)) huses hi (fun _ _ hst _ ↦ hst) ?_ ?_
    fun _ _ _ h ↦ h
  · intro effect t hworking _ ht
    cases effect <;> first | exact fun _ ↦ ht | exact trivial | exact hworking.elim
  · intro effect choice t hworking _ _ ht
    change i ∈ insiders ((perform i effect choice t).2.log id)
    rwa [hworking.insiders]

/-- Effects about another run owe nothing to this one. -/
theorem safeInside_elsewhere {other : OperationId} {p : Program Effect Effect.Answer β}
    (huses : p.Uses (About other)) (hother : other ≠ id) : SafeInside id i Anything p w := by
  refine safe_of_uses (F := fun _ ↦ True) huses trivial (fun _ _ _ _ _ ↦ trivial) ?_
    (fun _ _ _ _ _ _ _ ↦ trivial) fun _ _ _ _ ↦ trivial
  intro effect t habout _ _
  have hne : ∀ {about : OperationId}, effect.about = some about → about ≠ id := fun h ↦
    Option.some.inj (habout.symm.trans h) ▸ hother
  cases effect with
  | start about plan => exact hne rfl
  | markStep about _ | finish about _ | beginApply about _ | endApply about _ | beginUndo about _
  | endUndo about _ | commit about _ _ => exact fun heq ↦ absurd heq (hne rfl)
  | _ => trivial

theorem safeInside_close {kind : String} {state : State} (hi : i ∈ insiders (w.log id)) :
    SafeInside id i Anything (close id kind state).run w := by
  refine safeInside_perform hi (fun _ h _ ↦ h) fun t choice _ ↦ ?_
  generalize perform i (.finish id state) choice t = answered
  obtain ⟨_ | _, u⟩ := answered
  · exact safeInside_done
  · exact safeInside_done

theorem safeInside_keep {step : ℕ × String} {why : Error} (hi : i ∈ insiders (w.log id)) :
    SafeInside id i Anything (keep id step why).run w := by
  have hmark : (mark id step .applying (some (.failed why.display))).run.Uses (Working id) :=
    uses_call rfl
  refine safe_attempt_bind ((safeInside_working hmark hi).mono fun result t ht ↦ ?_)
  cases result with
  | ok _ => exact safeInside_close ht
  | error _ => exact safeInside_done

theorem safeInside_commit {outputs : Outputs} {f : Except Error Output → Program Effect Effect.Answer β}
    (hi : i ∈ insiders (w.log id)) (hf : ∀ result t, SafeInside id i Anything (f result) t) :
    SafeInside id i Anything ((commit id plan outputs).run >>= f) w := by
  refine safe_bind (safeInside_perform hi (fun _ h _ ↦ h) fun t choice _ ↦ ?_)
  generalize perform i (.commit id plan.kind outputs) choice t = answered
  obtain ⟨_ | _, u⟩ := answered
  · exact fun s _ _ ↦ hf _ s
  · exact fun s _ _ ↦ hf _ s

/-- The loop of `applySteps`, where what it does about a failure is done from inside. -/
theorem safeInside_applySteps {kind : String} {done : List (ℕ × String)}
    {failing : ℕ × String → Error → Run Unit}
    (hfailing : ∀ step why w, i ∈ insiders (w.log id) →
      SafeInside id i Anything (failing step why).run w)
    {rest : List (Step × ℕ)} {outputs : Outputs} {applied : List String}
    (hi : i ∈ insiders (w.log id)) :
    SafeInside id i (fun result t ↦ ∀ value, result = .ok value → i ∈ insiders (t.log id))
      (applySteps id kind done failing rest outputs applied).run w := by
  induction rest generalizing outputs applied w with
  | nil => exact fun t ht _ _ _ ↦ ht hi
  | cons entry rest ih =>
    obtain ⟨step, position⟩ := entry
    have hmark : ∀ state output, (mark id (position, step.key) state output).run.Uses (Working id) :=
      fun _ _ ↦ uses_call rfl
    have happly : (apply id position).run.Uses (Working id) :=
      uses_bind (uses_call rfl) fun _ ↦ uses_call rfl
    have hstop : ∀ {error : Error} {t : World}, SafeInside id i
        (fun result t ↦ ∀ value, result = .ok value → i ∈ insiders (t.log id))
        (.done (.error error : Except Error (Outputs × List String))) t :=
      fun _ _ _ _ h ↦ by cases h
    unfold applySteps
    split
    · exact ih hi
    · refine safe_attempt_bind ((safeInside_working (hmark _ _) hi).mono fun result t ht ↦ ?_)
      cases result with
      | error _ => exact hstop
      | ok _ =>
      refine safe_attempt_bind ((safeInside_working happly ht).mono fun result u hu ↦ ?_)
      cases result with
      | error _ => exact hstop
      | ok answer =>
      cases answer with
      | ok output =>
        refine safe_attempt_bind ((safeInside_working (hmark _ _) hu).mono fun result s hs ↦ ?_)
        cases result with
        | error _ => exact hstop
        | ok _ => exact ih hs
      | error source =>
        refine safe_attempt_bind ((hfailing _ _ _ hu).mono fun result s _ ↦ ?_)
        cases result with
        | error _ => exact hstop
        | ok _ => exact hstop

/-! ### The calls -/

theorem safeInside_rollBack (hi : i ∈ insiders (w.log id)) :
    SafeInside id i Anything (rollBack id plan).run w := by
  have hclose : ∀ {action : Action} {state : State} {t : World}, i ∈ insiders (t.log id) →
      SafeInside id i Anything
        (close id plan.kind state >>= fun _ ↦ pure action : Run Action).run t := fun ht ↦ by
    refine safe_attempt_bind ((safeInside_close ht).mono fun result u _ ↦ ?_)
    cases result with
    | ok _ => exact safeInside_done
    | error _ => exact safeInside_done
  refine safe_attempt_bind ((safeInside_working undoSteps_working hi).mono fun result t ht ↦ ?_)
  cases result with
  | error _ => exact safeInside_done
  | ok undone =>
    cases undone with
    | all _ => exact hclose ht
    | stopped _ _ => exact hclose ht

/-- The loop over a plan and the registry write after it, from inside. -/
theorem safeInside_finish {α : Type} {done : List (ℕ × String)} {outputs : Outputs}
    (failing : ℕ × String → Error → Run Unit) (answer : Outputs → List String → Output → α)
    (hfailing : ∀ step why w, i ∈ insiders (w.log id) →
      SafeInside id i Anything (failing step why).run w) (hi : i ∈ insiders (w.log id)) :
    SafeInside id i Anything (applySteps id plan.kind done failing plan.positioned outputs [] >>=
      fun (outputs, applied) ↦ commit id plan outputs >>= fun output ↦
        pure (answer outputs applied output) : Run α).run w := by
  refine safe_attempt_bind ((safeInside_applySteps hfailing hi).mono fun result t ht ↦ ?_)
  cases result with
  | error _ => exact safeInside_done
  | ok value =>
    obtain ⟨outputs', applied⟩ := value
    change SafeInside id i Anything
      (commit id plan outputs' >>= fun output ↦ pure (answer outputs' applied output) : Run α).run t
    rw [run_bind]
    refine safeInside_commit (ht _ rfl) fun result u ↦ ?_
    cases result with
    | ok _ => exact safeInside_done
    | error _ => exact safeInside_done

theorem safeInside_resume (hi : i ∈ insiders (w.log id)) :
    SafeInside id i Anything (resume id plan).run w := by
  refine safeInside_perform hi (fun _ _ ↦ trivial) fun t _ ht ↦ ?_
  refine safeInside_perform ht (fun _ _ ↦ trivial) fun u _ hu ↦ ?_
  exact safeInside_finish (fun _ _ ↦ pure ()) (fun _ applied _ ↦ Action.resumed applied)
    (fun _ _ _ _ ↦ safeInside_done) hu

theorem safeInside_takeOver {record : Operation} {rebuilders : List String} (hid : record.id = id)
    (hi : i ∈ insiders (w.log id)) :
    SafeInside id i Anything (takeOver record rebuilders).run w := by
  subst hid
  refine safeInside_perform hi (fun _ _ ↦ trivial) fun t choice ht ↦ ?_
  simp only [perform]
  split
  · cases choice with
    | error why => exact safeInside_done
    | ok plan =>
      cases record.recovery with
      | rollBack => exact safeInside_rollBack ht
      | resume => exact safeInside_resume ht
  · exact safeInside_done

theorem safeInside_actOn {record : Operation} {here : Owner} {rebuilders : List String} :
    SafeInside id i Anything (actOn here rebuilders record).run w := by
  by_cases hid : record.id = id
  · unfold actOn Owner.stateFor
    split
    · exact safeInside_done
    · split
      · exact safeInside_done
      · subst hid
        refine safeInside_call (fun _ ↦ trivial) fun t choice ↦ ?_
        simp only [perform]
        split
        · exact safeInside_done
        · refine safeInside_takeOver rfl ?_
          simp [World.note, insiders]
  · exact safeInside_elsewhere actOn_uses hid

theorem safeInside_resolve {here : Owner} {rebuilders : List String} :
    SafeInside id i Anything (resolve here rebuilders).run w := by
  have heach : ∀ (rest : List Operation) (resolutions : List Resolution) (w : World),
      SafeInside id i Anything (resolveEach here rebuilders rest resolutions).run w := by
    intro rest
    induction rest with
    | nil => exact fun _ _ ↦ safeInside_done
    | cons record rest ih =>
      intro resolutions w
      refine safe_attempt_bind (safeInside_actOn.mono fun action t _ ↦ ?_)
      cases action with
      | error _ => exact safeInside_done
      | ok action => exact ih _ _
  exact safeInside_call (fun _ ↦ trivial) fun t _ ↦ heach _ _ _

theorem safeInside_retry : SafeInside id i Anything (retry id plan).run w := by
  have hreopen : SafeInside id i (fun result t ↦ result = .ok () → i ∈ insiders (t.log id))
      (reopen id plan.kind).run w := by
    refine safeInside_call (fun _ ↦ trivial) fun t choice ↦ ?_
    by_cases hfailed : (t.view id).state = some .failed
    · obtain ⟨hanswer, hview⟩ := perform_reopen_failed i choice hfailed
      have hi : i ∈ insiders ((perform i (.reopen id) choice t).2.log id) := by
        rw [show (perform i (.reopen id) choice t).2.log id = _ from congrArg View.log hview]
        exact List.mem_cons_self
      generalize perform i (.reopen id) choice t = answered at hanswer hi
      obtain ⟨answer, u⟩ := answered
      obtain rfl : answer = true := hanswer
      exact fun s hs _ _ ↦ hs hi
    · rw [perform_reopen_other choice hfailed]
      exact fun _ _ _ h ↦ by cases h
  refine safe_attempt_bind (hreopen.mono fun result t ht ↦ ?_)
  cases result with
  | error _ => exact safeInside_done
  | ok _ =>
    refine safeInside_perform (ht rfl) (fun _ _ ↦ trivial) fun u _ hu ↦ ?_
    refine safeInside_perform hu (fun _ _ ↦ trivial) fun s _ hs ↦ ?_
    exact safeInside_finish (keep id)
      (fun outputs _ committed ↦ { id, record := none, outputs, committed : Done })
      (fun _ _ _ h ↦ safeInside_keep h) hs

end Rules

/-! ### The machine -/

section Machine

variable {id : OperationId} {i : Process} {c c' : Stage} {label : Happening}

/-- The identifier a process is about to ask about, when it asks about the owner of a run. -/
def asks (id : OperationId) (c : Stage) (process : Process) : Option ℕ :=
  match c.running process with
  | some (.perform (.isRunning other pid) _) => if other = id then some pid else none
  | _ => none

/-- The row of a run says that it is running under an owner, and nobody but that owner is inside. -/
def Named (id : OperationId) (c : Stage) (owner : Owner) : Prop :=
  ((c.world.journal.operations.get? id).any fun row ↦
    row.state = .running ∧ row.owner = owner) = true ∧
  ∀ process ∈ insiders (c.world.log id), busy c process = true → process.owner = owner

/-- A process that asks whether the owner of a run is alive, and is told that it is gone, asks while
the row says what it read. -/
def Asked (id : OperationId) (c : Stage) (process : Process)
    (choice : (effect : Effect) → effect.Choice) : Option ℕ → Prop
  | some pid => c.world.isRunning process.owner.host pid (choice (.isRunning id pid)) = false →
      Named id c ⟨process.owner.host, pid⟩
  | none => True

/-- A step of a history in which the run is not started again, and whoever finds it asks while the
row says what it read. -/
def Trusted (id : OperationId) (c : Stage) : Happening → Prop
  | .enter _ (.run other _) => other ≠ id
  | .enter _ (.retry _ _) | .enter _ (.resolve _) | .leave _ => True
  | .act process choice => Asked id c process choice (asks id c process)

instance (id : OperationId) (c : Stage) (owner : Owner) : Decidable (Named id c owner) :=
  inferInstanceAs (Decidable (_ ∧ _))

instance (id : OperationId) (c : Stage) (process : Process)
    (choice : (effect : Effect) → effect.Choice) : ∀ pid, Decidable (Asked id c process choice pid)
  | some _ => inferInstanceAs (Decidable (_ → _))
  | none => .isTrue trivial

instance (id : OperationId) (c : Stage) : ∀ label, Decidable (Trusted id c label)
  | .enter _ (.run other _) => inferInstanceAs (Decidable (other ≠ id))
  | .enter _ (.retry _ _) => .isTrue trivial
  | .enter _ (.resolve _) => .isTrue trivial
  | .leave _ => .isTrue trivial
  | .act process choice => inferInstanceAs (Decidable (Asked id c process choice _))

/-- What an effect of a process does to who is inside a run. -/
inductive Moves (c : Stage) (i : Process) (v v' : View) : Prop
  | stays (hsame : insiders v'.log = insiders v.log) (hstate : v'.state = v.state)
  | enters (hothers : ∀ j ∈ insiders v.log, busy c j = false)
      (hentered : insiders v'.log = i :: insiders v.log) (hstate : v'.state = some .running)
  | passes (hpassed : insiders v'.log = (insiders v.log).filter fun j ↦ j ≠ i)
      (hstate : v'.state = v.state)
  | closes (hinside : i ∈ insiders v.log) (hclosed : insiders v'.log = [])

/-- Whoever finds a run that says what was read finds it running and nobody inside. -/
theorem Named.found {pid : ℕ} {other : Bool} (halive : Alive c)
    (hnamed : Named id c ⟨i.owner.host, pid⟩)
    (hgone : c.world.isRunning i.owner.host pid other = false) :
    (c.world.view id).state = some .running ∧
      ∀ j ∈ insiders (c.world.log id), busy c j = false := by
  constructor
  · obtain ⟨row, hrow, hstate⟩ := (Option.any_eq_true _ _).mp hnamed.1
    exact Option.map_eq_some_iff.mpr ⟨row, hrow, (of_decide_eq_true hstate).1⟩
  intro j hj
  by_contra hbusy
  rw [Bool.not_eq_false] at hbusy
  have howner : j.owner = ⟨i.owner.host, pid⟩ := hnamed.2 j hj hbusy
  have hrunning : c.running j ≠ none := fun hnone ↦ by simp [busy, hnone] at hbusy
  obtain ⟨hpresent, _, hpid⟩ := halive j hrunning
  rw [howner] at hpid
  have hany : c.world.processes.any (fun process ↦ process.owner = ⟨i.owner.host, pid⟩) = true :=
    List.any_eq_true.mpr ⟨j, hpresent, by simpa using howner⟩
  have hrunning : c.world.isRunning i.owner.host pid other = true := by
    rw [World.isRunning, hany, Bool.true_or, Bool.and_true]
    exact decide_eq_true hpid
  rw [hgone] at hrunning
  cases hrunning

/-- What a process may do from where it is. -/
theorem moves_perform {effect : Effect} (choice : (effect : Effect) → effect.Choice)
    (hinv : (insideContract id).inv c.world) (hpre : (insideContract id).pre i effect c.world)
    (hasked : ∀ pid, effect = .isRunning id pid →
      c.world.isRunning i.owner.host pid (choice (.isRunning id pid)) = false →
      (c.world.view id).state = some .running ∧
        ∀ j ∈ insiders (c.world.log id), busy c j = false) :
    Moves c i (c.world.view id) ((perform i effect (choice effect) c.world).2.view id) := by
  by_cases habout : About id effect
  case neg =>
    rw [view_perform_of_ne habout]
    exact .stays rfl rfl
  by_cases hworking : Working id effect
  · exact .stays (hworking.insiders _) (hworking.state _)
  cases effect with
  | start other plan => exact absurd (Option.some.inj habout) hpre
  | finish other state =>
    obtain rfl : other = id := Option.some.inj habout
    have hopen : (c.world.view other).state = some .running :=
      hinv.1 (List.ne_nil_of_mem (hpre rfl))
    rw [(perform_finish_open i state _ hopen).2]
    exact .closes (hpre rfl) rfl
  | reopen other =>
    obtain rfl : other = id := Option.some.inj habout
    by_cases hfailed : (c.world.view other).state = some .failed
    · have hnobody : insiders (c.world.log other) = [] := by
        by_contra hsome
        rw [hinv.1 hsome] at hfailed
        cases hfailed
      rw [(perform_reopen_failed i _ hfailed).2]
      refine .enters (fun j hj ↦ ?_) rfl ?_
      · rw [show insiders (c.world.view other).log = [] from hnobody] at hj
        cases hj
      · simp [View.move_state, hfailed]
    · rw [perform_reopen_other _ hfailed]
      exact .stays rfl rfl
  | unfinished => cases habout
  | isRunning other pid =>
    obtain rfl : other = id := Option.some.inj habout
    simp only [perform]
    split
    · exact .stays rfl rfl
    · rename_i hgone
      obtain ⟨hrunning, hothers⟩ := hasked pid rfl (by simpa using hgone)
      rw [view_note_self]
      exact .enters hothers rfl hrunning
  | rebuild rebuilders record =>
    obtain rfl : record.id = id := Option.some.inj habout
    have hpassed : Moves c i (c.world.view record.id)
        ((c.world.note record.id i .passed).view record.id) := by
      rw [view_note_self]
      exact .passes rfl rfl
    simp only [perform]
    split
    · split
      · exact .stays rfl rfl
      · exact hpassed
    · exact hpassed
  | snapshot other records kind => exact .stays rfl rfl
  | commit other kind outputs =>
    obtain rfl : other = id := Option.some.inj habout
    cases choice (.commit other kind outputs) with
    | error why => exact .stays rfl rfl
    | ok output =>
      have hopen : (c.world.view other).state = some .running :=
        hinv.1 (List.ne_nil_of_mem (hpre rfl))
      rw [(perform_commit_open i kind outputs output hopen).2]
      exact .closes (hpre rfl) rfl
  | markStep other step | steps other | beginApply other position | endApply other position
  | beginUndo other position | endUndo other position =>
    exact absurd (Option.some.inj habout) hworking

/-- One process at a time is inside. -/
def Unique (id : OperationId) (c : Stage) : Prop := ∀ i j, InRun id c i → InRun id c j → i = j

theorem busy_of_act {next : Program Effect Effect.Answer (Except Error Report)} {world : World}
    {j : Process} (hi : busy c i = true)
    (hj : busy ⟨world, Function.update c.running i (some next)⟩ j = true) : busy c j = true := by
  by_cases hji : j = i
  · exact hji ▸ hi
  · simpa [busy, Function.update_of_ne hji] using hj

/-- After a move, one process at a time is inside. -/
theorem Moves.unique {next : Program Effect Effect.Answer (Except Error Report)} {world : World}
    (hmoves : Moves c i (c.world.view id) (world.view id)) (hbusy : busy c i = true)
    (hunique : Unique id c) :
    Unique id ⟨world, Function.update c.running i (some next)⟩ := by
  rintro j k ⟨hj, hjbusy⟩ ⟨hk, hkbusy⟩
  have hjbusy := busy_of_act hbusy hjbusy
  have hkbusy := busy_of_act hbusy hkbusy
  change j ∈ insiders (world.view id).log at hj
  change k ∈ insiders (world.view id).log at hk
  cases hmoves with
  | stays hsame _ =>
    rw [hsame] at hj hk
    exact hunique j k ⟨hj, hjbusy⟩ ⟨hk, hkbusy⟩
  | enters hothers hentered _ =>
    have honly : ∀ {l}, l ∈ insiders (world.view id).log → busy c l = true → l = i := by
      intro l hl hlbusy
      rw [hentered] at hl
      rcases List.mem_cons.mp hl with heq | hl
      · exact heq
      · rw [hothers l hl] at hlbusy
        cases hlbusy
    rw [honly hj hjbusy, honly hk hkbusy]
  | passes hpassed _ =>
    rw [hpassed] at hj hk
    exact hunique j k ⟨(List.mem_filter.mp hj).1, hjbusy⟩ ⟨(List.mem_filter.mp hk).1, hkbusy⟩
  | closes _ hclosed =>
    rw [hclosed] at hj
    cases hj

/-- After a move, the row is running where somebody is inside, and everybody inside was admitted. -/
theorem Moves.inv {w : World} (hmoves : Moves c i (c.world.view id) (w.view id))
    (hpast : w.past = c.world.past) (hseen : i ∈ c.world.past)
    (hinv : (insideContract id).inv c.world) : (insideContract id).inv w := by
  obtain ⟨hrunning, hknown⟩ := hinv
  change (insiders (w.view id).log ≠ [] → _) ∧ ∀ process ∈ insiders (w.view id).log, _
  rw [hpast]
  cases hmoves with
  | stays hsame hstate => exact hsame ▸ hstate ▸ ⟨hrunning, hknown⟩
  | enters _ hentered hstate =>
    exact ⟨fun _ ↦ hstate, hentered ▸ List.forall_mem_cons.mpr ⟨hseen, hknown⟩⟩
  | passes hpassed hstate =>
    rw [hpassed, hstate]
    refine ⟨fun hsome ↦ hrunning fun hnone ↦ hsome ?_, fun j hj ↦ hknown j (List.mem_filter.mp hj).1⟩
    rw [show insiders (c.world.view id).log = [] from hnone]
    rfl
  | closes _ hclosed =>
    rw [hclosed]
    exact ⟨fun hsome ↦ absurd rfl hsome, fun j hj ↦ by cases hj⟩

/-- A move of one process leaves another one inside that was, unless its call has returned. -/
theorem Moves.rely {w : World} {j : Process} {p : Program Effect Effect.Answer (Except Error Report)}
    (hmoves : Moves c i (c.world.view id) (w.view id)) (hbusy : busy c i = true)
    (hunique : Unique id c) (hji : j ≠ i) (hrunning : c.running j = some p) :
    Reliable (insideContract id) (fun _ ↦ Anything) j p c.world w := by
  cases p with
  | done value => exact .inr ⟨value, rfl, fun _ ↦ trivial⟩
  | perform effect next =>
    refine .inl fun hj ↦ ?_
    change j ∈ insiders (w.view id).log
    change j ∈ insiders (c.world.view id).log at hj
    cases hmoves with
    | stays hsame _ => exact hsame ▸ hj
    | enters _ hentered _ => exact hentered ▸ List.mem_cons_of_mem _ hj
    | passes hpassed _ => exact hpassed ▸ List.mem_filter.mpr ⟨hj, by simpa using hji⟩
    | closes hinside _ =>
      have hjbusy : busy c j = true := by simp [busy, hrunning]
      exact absurd (hunique j i ⟨hj, hjbusy⟩ ⟨hinside, hbusy⟩) hji

/-- A question about the owner of a run is one that `Asked` speaks of. -/
theorem Trusted.found {effect : Effect} {choice : (effect : Effect) → effect.Choice}
    {next : effect.Answer → Program Effect Effect.Answer (Except Error Report)}
    (htrusted : Trusted id c (.act i choice)) (halive : Alive c)
    (hrunning : c.running i = some (.perform effect next)) (pid : ℕ)
    (heffect : effect = .isRunning id pid)
    (hgone : c.world.isRunning i.owner.host pid (choice (.isRunning id pid)) = false) :
    (c.world.view id).state = some .running ∧
      ∀ j ∈ insiders (c.world.log id), busy c j = false := by
  subst heffect
  have hasks : asks id c i = some pid := by simp [asks, hrunning]
  have hasked : Asked id c i choice (asks id c i) := htrusted
  rw [hasks] at hasked
  exact (hasked hgone).found halive hgone

theorem safeInside_called {process : Process} {job : Job} {w : World}
    (hrun : ∀ other plan, job = .run other plan → other ≠ id) :
    SafeInside id process Anything (called process job).run w := by
  have hreport : ∀ {α : Type} {x : Run α} {report : α → Report} {w : World},
      SafeInside id process Anything x.run w →
        SafeInside id process Anything (x >>= fun value ↦ pure (report value)).run w := by
    intro α x report w hx
    refine safe_attempt_bind (hx.mono fun result t _ ↦ ?_)
    cases result with
    | ok _ => exact safeInside_done
    | error _ => exact safeInside_done
  cases job with
  | run other plan => exact hreport (safeInside_elsewhere run_uses (hrun other plan rfl))
  | retry other plan =>
    by_cases hother : other = id
    · subst hother
      exact hreport safeInside_retry
    · exact hreport (safeInside_elsewhere retry_uses hother)
  | resolve rebuilders => exact hreport safeInside_resolve

theorem insideSound : Sound machine (insideContract id) (fun _ ↦ Anything)
    (fun c label ↦ Trusted id c label ∧ Unique id c ∧ Alive c) where
  assume _ _ := trivial
  act {c i choice effect rest} hP hrunning hinv hpre := by
    obtain ⟨htrusted, hunique, halive⟩ := hP
    have hbusy : busy c i = true := by simp [busy, hrunning]
    have hmoves := moves_perform choice hinv hpre (htrusted.found halive hrunning)
    refine ⟨hmoves.inv (perform_past _ _) (halive i (by simp [hrunning])).2.1 hinv,
      fun j p hji hj ↦ hmoves.rely hbusy hunique hji hj⟩
  enter {c i job world} hP _ hworld hinv := by
    have hlog : world.log id = c.world.log id := congrArg View.log (view_arrive hworld)
    have hview : world.view id = c.world.view id := view_arrive hworld
    obtain ⟨_, _, _, hpast⟩ := arrive_keeps hworld
    refine ⟨⟨?_, fun j hj ↦ ?_⟩, safeInside_called fun other plan hjob ↦ ?_,
      fun j p _ _ ↦ .inl fun hj ↦ ?_⟩
    · rw [hlog, hview]
      exact hinv.1
    · rw [hpast]
      exact List.mem_cons_of_mem _ (hinv.2 j (hlog ▸ hj))
    · subst hjob
      exact hP.1
    · rwa [hlog]
  leave _ _ hinv := ⟨hinv, fun _ _ _ _ ↦ .inl fun hj ↦ hj⟩

/-- A step that is trusted leaves one process at a time inside. -/
theorem unique_next (htrusted : Trusted id c label) (hunique : Unique id c) (halive : Alive c)
    (hguarded : Guarded machine (insideContract id) (fun _ ↦ Anything) c)
    (hnext : machine.next c label = some c') : Unique id c' := by
  cases label with
  | enter i job =>
    obtain ⟨_, world, hworld, rfl⟩ := Machine.next_enter_eq_some.mp hnext
    have hlog : world.log id = c.world.log id := congrArg View.log (view_arrive hworld)
    obtain ⟨hnew, _⟩ := arrive_keeps hworld
    have hold : ∀ {j}, InRun id ⟨world, Function.update c.running i (some (machine.program i job))⟩ j →
        InRun id c j := by
      rintro j ⟨hj, hbusy⟩
      have hj : j ∈ insiders (c.world.log id) := hlog ▸ hj
      have hji : j ≠ i := fun heq ↦ hnew (heq ▸ hguarded.1.2 j hj)
      exact ⟨hj, by simpa [busy, Function.update_of_ne hji] using hbusy⟩
    exact fun j k hj hk ↦ hunique j k (hold hj) (hold hk)
  | act i choice =>
    obtain ⟨effect, rest, hrunning, rfl⟩ := Machine.next_act_eq_some.mp hnext
    obtain ⟨hpre, _⟩ := hguarded.2 i _ hrunning c.world (fun h ↦ h) hguarded.1
    have hmoves := moves_perform choice hguarded.1 hpre
      (htrusted.found halive hrunning)
    exact hmoves.unique (by simp [busy, hrunning]) hunique
  | leave i =>
    obtain ⟨_, _, rfl⟩ := Machine.next_leave_eq_some.mp hnext
    have hold : ∀ {j}, InRun id ⟨machine.leave i c.world, Function.update c.running i none⟩ j →
        InRun id c j := by
      rintro j ⟨hj, hbusy⟩
      have hji : j ≠ i := by
        rintro rfl
        simp [busy] at hbusy
      exact ⟨hj, by simpa [busy, Function.update_of_ne hji] using hbusy⟩
    exact fun j k hj hk ↦ hunique j k (hold hj) (hold hk)

/-- One process at a time is inside a run, and only that one applies or undoes its steps, in every
interleaving in which whoever asks about the run's owner, and finds it gone, asks while the row is
running under that owner and nobody but that owner is inside. Assumes: nobody was alive and nothing
was noted of the run when the history began. -/
theorem one_process_inside {c₀ : Stage} {labels : List Happening} (hidle : Idle c₀)
    (hlog : c₀.world.log id = []) (htrusted : machine.Along (Trusted id) c₀ labels)
    (hexec : machine.exec c₀ labels = some c) : OneInside id c := by
  have hstart : Guarded machine (insideContract id) (fun _ ↦ Anything) c₀ := by
    refine ⟨⟨fun hsome ↦ ?_, fun j hj ↦ ?_⟩, fun i p hi ↦ ?_⟩
    · rw [hlog] at hsome
      exact absurd rfl hsome
    · rw [hlog] at hj
      cases hj
    · rw [hidle i] at hi
      cases hi
  have hnobody : Unique id c₀ := fun i j hi _ ↦ by
    have hbusy := hi.2
    simp [busy, hidle i] at hbusy
  have hstep : ∀ c label c', Trusted id c label → machine.next c label = some c' →
      Guarded machine (insideContract id) (fun _ ↦ Anything) c ∧ Unique id c ∧ Alive c →
      Guarded machine (insideContract id) (fun _ ↦ Anything) c' ∧ Unique id c' ∧ Alive c' :=
    fun c label c' hlabel hnext ⟨hguarded, hunique, halive⟩ ↦
      ⟨insideSound.guarded_next ⟨hlabel, hunique, halive⟩ hnext hguarded,
        unique_next hlabel hunique halive hguarded hnext, alive_next hnext halive⟩
  obtain ⟨hguarded, hunique, _⟩ := Machine.exec_induction hstep htrusted hexec
    ⟨hstart, hnobody, fun i hi ↦ absurd (hidle i) hi⟩
  refine ⟨hunique, fun i effect next hrunning hacting ↦ ⟨?_, by simp [busy, hrunning]⟩⟩
  obtain ⟨hpre, _⟩ := hguarded.2 i _ hrunning c.world (fun h ↦ h) hguarded.1
  cases effect with
  | beginApply other position | endApply other position | beginUndo other position
  | endUndo other position => exact hpre hacting
  | _ => exact hacting.elim

end Machine

/-! ### Two resolvers at once -/

/-- A journal that holds a build whose process is gone: its clone was being attempted. -/
def abandoned : Stage where
  world :=
    { beginning.world with
      journal := (beginning.world.journal.start 0 build ⟨"here", 1⟩).markStep 0
        ⟨0, "clone", .applying, none⟩ }
  running _ := none

/-- Two processes resolve it at once, each into the apply of the clone. -/
def bothResolve : List Happening :=
  [.enter (nth 2) (.resolve ["build"]), .enter (nth 3) (.resolve ["build"])] ++
    List.replicate 7 (.act (nth 2) (failingOn fun _ ↦ false)) ++
    List.replicate 7 (.act (nth 3) (failingOn fun _ ↦ false))

/-- Two processes can be inside one run, applying the same step. -/
theorem two_processes_inside : ∃ c : Stage, Idle abandoned ∧ abandoned.world.log 0 = [] ∧
    machine.exec abandoned bothResolve = some c ∧
    (∀ process ∈ [nth 2, nth 3], ∃ entry ∈ c.world.log 0,
      entry.1 = process ∧ entry.2.deedAt 0 = some .applying) ∧ ¬OneInside 0 c := by
  have hexec : (machine.exec abandoned bothResolve).map (fun c ↦
      ([nth 2, nth 3].all fun process ↦ decide (process ∈ insiders (c.world.log 0)) && busy c process,
        [nth 2, nth 3].all fun process ↦ (c.world.log 0).any fun entry ↦
          decide (entry.1 = process) && decide (entry.2.deedAt 0 = some .applying))) =
      some (true, true) := by
    decide +kernel
  obtain ⟨c, hc, hresult⟩ := Option.map_eq_some_iff.mp hexec
  obtain ⟨hinside, hacting⟩ := Prod.mk.inj hresult
  simp only [List.all_eq_true, List.any_eq_true, Bool.and_eq_true, decide_eq_true_eq] at hinside hacting
  refine ⟨c, fun _ ↦ rfl, rfl, hc, hacting, fun hone ↦ ?_⟩
  cases hone.unique (nth 2) (nth 3) (hinside _ (by simp)) (hinside _ (by simp))

/-- One of them resolves it alone. -/
def oneResolves : List Happening :=
  .enter (nth 2) (.resolve ["build"]) :: List.replicate 7 (.act (nth 2) (failingOn fun _ ↦ false))

/-- `one_process_inside` at that history. -/
theorem one_process_inside_oneResolves : ∃ c : Stage,
    machine.exec abandoned oneResolves = some c ∧ OneInside 0 c := by
  have hexec : (machine.exec abandoned oneResolves).isSome = true := by decide +kernel
  obtain ⟨c, hc⟩ := Option.isSome_iff_exists.mp hexec
  exact ⟨c, hc, one_process_inside (fun _ ↦ rfl) rfl (by decide +kernel) hc⟩

end Nodal.Lifecycle
