import Nodal.Foundation.Contract
import Nodal.Lifecycle.Undoing

/-!
# A rollback beside others

The contract of the processes that share an operation that rolls back. One process, the first, runs
the plan; the others resolve, once the first is over. The first may count on nobody else touching
the operation. A resolver may count on the others going the same way it does: what stands undone
stays undone, and the row moves to `rolled_back` or not at all. It owes that it only undoes steps
that were started, in order, and that it closes the row where all of them are undone.

`safeBack_undoSteps` is the pass over the steps that the first and every resolver share.
-/

set_option autoImplicit false

namespace Nodal.Lifecycle

open Nodal.Foundation Nodal.Foundation.Attempt

/-! ### What others may do -/

/-- The process was here and is gone. -/
def Over (first : Process) (w : World) : Prop := first ∈ w.past ∧ first ∉ w.processes

/-- What resolvers do about an operation while another one is inside it. -/
structure Beside (v v' : View) : Prop where
  started : ∀ position, Started v'.log position ↔ Started v.log position
  undone : ∀ position, standing v.log position = some .undone →
    standing v'.log position = some .undone
  state : v'.state = v.state ∨ v.state = some .running ∧ v'.state = some .rolledBack

theorem Beside.refl (v : View) : Beside v v := ⟨fun _ ↦ .rfl, fun _ ↦ id, .inl rfl⟩

theorem Beside.trans {v v' v'' : View} (h : Beside v v') (h' : Beside v' v'') : Beside v v'' := by
  refine ⟨fun position ↦ (h'.started position).trans (h.started position),
    fun position ↦ h'.undone position ∘ h.undone position, ?_⟩
  rcases h.state with heq | ⟨hrunning, hback⟩
  · rcases h'.state with heq' | ⟨hrunning', hback'⟩
    · exact .inl (heq'.trans heq)
    · exact .inr ⟨heq ▸ hrunning', hback'⟩
  · rcases h'.state with heq' | ⟨hrunning', _⟩
    · exact .inr ⟨hrunning, heq'.trans hback⟩
    · rw [hback] at hrunning'
      cases hrunning'

/-- The operation is over. -/
def Settled (v : View) : Prop := v.state = some .committed ∨ v.state = some .rolledBack

theorem Beside.settled {v v' : View} (h : Beside v v') (hsettled : Settled v) : Settled v' := by
  rcases h.state with heq | ⟨_, hback⟩
  · rwa [Settled, heq]
  · exact .inr hback

/-- The process found the operation and took it over. -/
def Took (process : Process) (v : View) : Prop :=
  (process, .found) ∈ v.log ∧ (process, .passed) ∉ v.log

theorem took_iff {process : Process} {v : View} : Took process v ↔
    (process, .found) ∈ own process v.log ∧ (process, .passed) ∉ own process v.log := by
  simp [Took, own]

theorem Took.of_own {process : Process} {v v' : View}
    (h : own process v'.log = own process v.log) (htook : Took process v') : Took process v := by
  rw [took_iff] at htook ⊢
  rwa [← h]

/-- What the first process counts on, what a resolver does, and what both owe. -/
def backContract (id : OperationId) (plan : Plan) (first : Process) :
    Contract Process World Effect Effect.Choice where
  inv w := RollingBack plan (w.view id) ∧ (∀ entry ∈ (w.view id).log, entry.1 ∈ w.past) ∧
    first ∈ w.past
  rely i w w' := (i = first → w'.view id = w.view id) ∧ (i ≠ first →
    own i (w'.view id).log = own i (w.view id).log ∧
      (Over first w → Over first w' ∧ Beside (w.view id) (w'.view id)))
  rely_refl i w := ⟨fun _ ↦ rfl, fun _ ↦ ⟨rfl, fun h ↦ ⟨h, .refl _⟩⟩⟩
  rely_trans i w w' w'' h h' := by
    refine ⟨fun heq ↦ (h'.1 heq).trans (h.1 heq), fun hne ↦ ⟨(h'.2 hne).1.trans (h.2 hne).1, ?_⟩⟩
    intro hover
    obtain ⟨hover', hbeside⟩ := (h.2 hne).2 hover
    obtain ⟨hover'', hbeside'⟩ := (h'.2 hne).2 hover'
    exact ⟨hover'', hbeside.trans hbeside'⟩
  assume _ effect choice _ := Cooperates id plan effect choice
  pre i effect w := About id effect → (i ≠ first → Over first w) ∧
    Allowed plan (i = first) i effect (w.view id)

/-- What a process that is inside the operation still does keeps the contract and ends in `Q`. -/
abbrev SafeBack {β : Type} (id : OperationId) (plan : Plan) (first i : Process)
    (Q : β → World → Prop) (p : Program Effect Effect.Answer β) (w : World) : Prop :=
  Safe machine (backContract id plan first) i Q p w

section Rules

variable {id : OperationId} {plan : Plan} {first i : Process} {w w' : World}

/-- The process may be inside the operation: it is the first, or the first is over. -/
def Entitled (first i : Process) (w : World) : Prop := i ≠ first → Over first w

theorem Entitled.rely (h : Entitled first i w)
    (hrely : (backContract id plan first).rely i w w') : Entitled first i w' ∧
      Beside (w.view id) (w'.view id) ∧ own i (w'.view id).log = own i (w.view id).log := by
  by_cases hfirst : i = first
  · have hview := hrely.1 hfirst
    exact ⟨fun hne ↦ absurd hfirst hne, hview ▸ .refl _, by rw [hview]⟩
  · obtain ⟨hown, hbeside⟩ := hrely.2 hfirst
    obtain ⟨hover, hbeside⟩ := hbeside (h hfirst)
    exact ⟨fun _ ↦ hover, hbeside, hown⟩

/-- What an effect does to the processes, as far as `Entitled` is concerned. -/
theorem Entitled.perform {effect : Effect} {choice : effect.Choice} (h : Entitled first i w) :
    Entitled first i (perform i effect choice w).2 := by
  intro hne
  rw [Over, perform_processes, perform_past]
  exact h hne

/-- What anybody may do, the one that runs the plan may do. -/
theorem Allowed.mono {runs runs' : Prop} (himp : runs → runs') {effect : Effect} {v : View}
    (h : Allowed plan runs i effect v) : Allowed plan runs' i effect v := by
  cases effect with
  | start other plan' => exact ⟨himp h.1, h.2⟩
  | markStep other mark =>
    simp only [Allowed] at h ⊢
    cases hmark : mark.state with
    | applying => exact ⟨himp (hmark ▸ h).1, (hmark ▸ h).2⟩
    | applied => exact ⟨himp (hmark ▸ h).1, (hmark ▸ h).2⟩
    | undone =>
      rw [hmark] at h
      exact h
  | beginApply other position => exact ⟨himp h.1, h.2⟩
  | endApply other position => exact ⟨himp h.1, h.2⟩
  | commit other kind outputs => exact ⟨himp h.1, h.2⟩
  | _ => exact h

/-- An event that marks no step as being attempted, and leaves what stands undone. -/
theorem Beside.of_note {v : View} {event : Event}
    (hmark : ∀ mark, event = .marked mark → mark.state ≠ .applying)
    (hdeed : ∀ position deed, event = .acted position deed → deed.stands = true → deed = .undone) :
    Beside v (v.note i event) := by
  refine ⟨fun position ↦ ?_, fun position hundone ↦ ?_, .inl rfl⟩
  · rw [View.note_log, started_cons]
    constructor
    · rintro (⟨mark, hevent, _, hstate⟩ | hstarted)
      · exact absurd hstate (hmark mark hevent)
      · exact hstarted
    · exact .inr
  · rw [View.note_log, standing_cons, hundone]
    cases hevent : (event.deedAt position).filter Deed.stands with
    | none => rfl
    | some deed =>
      obtain ⟨hdeedAt, hstands⟩ := Option.filter_eq_some_iff.mp hevent
      cases event with
      | acted other deed' =>
        simp only [Event.deedAt] at hdeedAt
        split at hdeedAt
        · rw [← Option.some.inj hdeedAt] at hstands ⊢
          rw [hdeed other deed' rfl hstands]
          rfl
        · cases hdeedAt
      | _ => cases hdeedAt

/-- What a process may do without running the plan, it does beside others. -/
theorem Beside.perform {effect : Effect} {choice : effect.Choice} (habout : About id effect)
    (hallowed : Allowed plan False i effect (w.view id))
    (hchoice : Cooperates id plan effect choice) :
    Beside (w.view id) ((perform i effect choice w).2.view id) := by
  cases effect with
  | start other plan' => exact hallowed.1.elim
  | markStep other mark =>
    obtain rfl : other = id := Option.some.inj habout
    have hstate : mark.state = .undone := by
      simp only [Allowed] at hallowed
      cases hmark : mark.state with
      | applying => exact (hmark ▸ hallowed).1.elim
      | applied => exact (hmark ▸ hallowed).1.elim
      | undone => rfl
    rw [view_markStep]
    have hmarked : Beside (w.view other) ((w.view other).markStep mark) :=
      ⟨fun _ ↦ .rfl, fun _ ↦ id, .inl rfl⟩
    refine hmarked.trans (.of_note (fun mark' hevent ↦ ?_) fun _ _ hevent ↦ by cases hevent)
    cases hevent
    simp [hstate]
  | finish other state =>
    obtain rfl : other = id := Option.some.inj habout
    obtain ⟨rfl, _⟩ := hallowed
    by_cases hrunning : (w.view other).state = some .running
    · rw [(perform_finish_open _ .rolledBack choice hrunning).2]
      have hmoved : Beside (w.view other) ((w.view other).move .rolledBack) :=
        ⟨fun _ ↦ .rfl, fun _ ↦ id, .inr ⟨hrunning, by simp [View.move_state, hrunning]⟩⟩
      exact hmoved.trans (.of_note (by simp) (by simp))
    · rw [perform_finish_closed .rolledBack choice hrunning]
      exact .refl _
  | reopen other => exact hallowed.elim
  | steps other => exact .refl _
  | unfinished => exact .refl _
  | isRunning other pid =>
    obtain rfl : other = id := Option.some.inj habout
    simp only [Lifecycle.perform]
    split
    · exact .refl _
    · rw [view_note_self]
      exact .of_note (by simp) (by simp)
  | rebuild rebuilders record =>
    obtain rfl : record.id = id := Option.some.inj habout
    have hpassed : Beside (w.view record.id) ((w.note record.id i .passed).view record.id) := by
      rw [view_note_self]
      exact .of_note (by simp) (by simp)
    simp only [Lifecycle.perform]
    split
    · split
      · exact .refl _
      · exact hpassed
    · exact hpassed
  | snapshot other records kind => exact .refl _
  | beginApply other position => exact hallowed.1.elim
  | endApply other position => exact hallowed.1.elim
  | beginUndo other position =>
    obtain rfl : other = id := Option.some.inj habout
    rw [Lifecycle.perform, view_note_self]
    refine .of_note (by simp) fun position' deed hevent hstands ↦ ?_
    cases hevent
    cases hstands
  | endUndo other position =>
    obtain rfl : other = id := Option.some.inj habout
    cases choice with
    | ok output =>
      rw [Lifecycle.perform, view_note_self]
      refine .of_note (by simp) fun position' deed hevent _ ↦ ?_
      cases hevent
      rfl
    | error why => exact absurd rfl (hchoice rfl why)
  | commit other kind outputs => exact hallowed.1.elim

/-- An effect that anybody may do, done by a process that may be inside the operation. -/
theorem safeBack_beside {β : Type} {effect : Effect}
    {next : effect.Answer → Program Effect Effect.Answer β} {Q : β → World → Prop}
    (hentitled : Entitled first i w) (habout : About id effect)
    (hallowed : ∀ v, Beside (w.view id) v → own i v.log = own i (w.view id).log →
      RollingBack plan v → Allowed plan False i effect v)
    (hnext : ∀ t choice, Beside (w.view id) (t.view id) →
      own i (t.view id).log = own i (w.view id).log → RollingBack plan (t.view id) →
      Cooperates id plan effect choice → Entitled first i (perform i effect choice t).2 →
      Beside (t.view id) ((perform i effect choice t).2.view id) →
      SafeBack id plan first i Q (next (perform i effect choice t).1) (perform i effect choice t).2) :
    SafeBack id plan first i Q (.perform effect next) w := by
  intro t hst ht
  obtain ⟨hentitled', hbeside, hown⟩ := hentitled.rely hst
  have hpre := hallowed _ hbeside hown ht.1
  refine ⟨fun _ ↦ ⟨hentitled', hpre.mono False.elim⟩, fun choice hchoice ↦ ?_⟩
  exact hnext t choice hbeside hown ht.1 hchoice hentitled'.perform
    (Beside.perform habout hpre hchoice)

/-- An effect of the first process. Nobody touches the operation before it. -/
theorem safeBack_first {β : Type} {effect : Effect}
    {next : effect.Answer → Program Effect Effect.Answer β} {Q : β → World → Prop}
    (hallowed : Allowed plan True first effect (w.view id))
    (hnext : ∀ t choice, t.view id = w.view id → Cooperates id plan effect choice →
      SafeBack id plan first first Q (next (perform first effect choice t).1)
        (perform first effect choice t).2) :
    SafeBack id plan first first Q (.perform effect next) w := by
  intro t hst ht
  have hview := hst.1 rfl
  refine ⟨fun _ ↦ ⟨fun hne ↦ absurd rfl hne, ?_⟩, fun choice hchoice ↦ hnext t choice hview hchoice⟩
  rw [hview]
  exact hallowed.mono fun _ ↦ rfl

/-! ### The pass over the steps -/

/-- A pass that has `remaining` left to look at: every step that was started either stands undone,
or is among the rows that were read and is still ahead. -/
structure Back (acted : List StepRecord) (remaining : List (Step × ℕ)) (v : View) : Prop where
  live : v.state = some .running ∨ v.state = some .rolledBack
  ahead : ∀ position, Started v.log position → standing v.log position = some .undone ∨
    (∃ record ∈ acted, record.position = position) ∧ ∃ step, (step, position) ∈ remaining
  acted : ∀ record ∈ acted, Started v.log record.position

/-- The undos a process began are above what it has left to look at. -/
def Below (remaining : List (Step × ℕ)) (undone : List ℕ) : Prop :=
  ∀ earlier ∈ undone, ∀ entry ∈ remaining, entry.2 < earlier

variable {acted : List StepRecord} {remaining : List (Step × ℕ)} {v v' : View}

theorem Back.open (h : Back acted remaining v) : v.state ≠ some .committed := by
  rcases h.live with hlive | hlive <;> simp [hlive]

theorem Back.beside (h : Back acted remaining v) (hbeside : Beside v v') :
    Back acted remaining v' := by
  refine ⟨?_, fun position hstarted ↦ ?_, fun record hrecord ↦ ?_⟩
  · rcases hbeside.state with heq | ⟨_, hback⟩
    · rw [heq]
      exact h.live
    · exact .inr hback
  · rcases h.ahead position ((hbeside.started position).mp hstarted) with hundone | hahead
    · exact .inl (hbeside.undone position hundone)
    · exact .inr hahead
  · exact (hbeside.started _).mpr (h.acted record hrecord)

/-- A step that stands undone need not be looked at. -/
theorem Back.tail {step : Step} {position : ℕ} (h : Back acted ((step, position) :: remaining) v)
    (hundone : Started v.log position → standing v.log position = some .undone) :
    Back acted remaining v := by
  refine ⟨h.live, fun other hstarted ↦ ?_, h.acted⟩
  by_cases heq : other = position
  · exact .inl (heq ▸ hundone (heq ▸ hstarted))
  · rcases h.ahead other hstarted with hundone | ⟨hacted, step', hmem⟩
    · exact .inl hundone
    · rcases List.mem_cons.mp hmem with hhead | hmem
      · exact absurd (Prod.mk.inj hhead).2 heq
      · exact .inr ⟨hacted, step', hmem⟩

/-- What a pass ends with. -/
def PassedBack (id : OperationId) (first i : Process) (result : Except Error Undone) (w : World) :
    Prop :=
  (∃ keys, result = .ok (.all keys)) ∧ Entitled first i w ∧
    ((w.view id).state = some .running ∨ (w.view id).state = some .rolledBack) ∧
    ∀ position, Started (w.view id).log position → standing (w.view id).log position = some .undone

/-- The loop of a pass. -/
theorem safeBack_undoEach {undone : List String} (hsorted : remaining.Pairwise fun a b ↦ b.2 < a.2)
    (hentitled : Entitled first i w) (hback : Back acted remaining (w.view id))
    (hbelow : Below remaining (undoings i (w.view id).log)) :
    SafeBack id plan first i (PassedBack id first i) (undoEach id acted remaining undone).run w := by
  induction remaining generalizing undone w with
  | nil =>
    intro t hst _
    obtain ⟨hentitled', hbeside, _⟩ := hentitled.rely hst
    have hback' := hback.beside hbeside
    refine ⟨⟨undone, rfl⟩, hentitled', hback'.live, fun position hstarted ↦ ?_⟩
    rcases hback'.ahead position hstarted with hundone | ⟨_, _, hmem⟩
    · exact hundone
    · cases hmem
  | cons entry remaining ih =>
    obtain ⟨step, position⟩ := entry
    obtain ⟨hhead, htail⟩ := List.pairwise_cons.mp hsorted
    unfold undoEach
    split
    · rename_i hany
      obtain ⟨record, hrecord, hposition⟩ := List.any_eq_true.mp hany
      obtain rfl : record.position = position := of_decide_eq_true hposition
      have hstarted := hback.acted record hrecord
      -- The undo is begun.
      refine safeBack_beside hentitled rfl (fun v hbeside hown _ ↦ ?_)
        fun t choice hbeside hown _ _ hentitled₁ hbeside₁ ↦ ?_
      · refine ⟨(hbeside.started _).mpr hstarted, (hback.beside hbeside).open, fun earlier hmem ↦ ?_⟩
        rw [undoings_of_own hown] at hmem
        exact hbelow earlier hmem _ List.mem_cons_self
      have hback₁ := (hback.beside hbeside).beside hbeside₁
      have hbelow₁ : Below remaining (undoings i ((perform i (.beginUndo id record.position) choice
          t).2.view id).log) := by
        rw [perform, view_note_self, View.note_log, undoings_cons, if_pos rfl,
          undoings_of_own hown]
        intro earlier hmem entry hentry
        rcases List.mem_cons.mp hmem with rfl | hmem
        · exact hhead entry hentry
        · exact hbelow earlier hmem entry (List.mem_cons_of_mem _ hentry)
      generalize (perform i (.beginUndo id record.position) choice t).2 = w₁ at *
      -- The undo has ended.
      refine safeBack_beside hentitled₁ rfl (fun v hbeside hown _ ↦ ?_)
        fun t choice hbeside hown _ hchoice hentitled₂ hbeside₂ ↦ ?_
      · exact ⟨(hback₁.beside hbeside).acted record hrecord, (hback₁.beside hbeside).open⟩
      cases choice with
      | error why => exact absurd rfl (hchoice rfl why)
      | ok output =>
      have hback₂ := (hback₁.beside hbeside).beside hbeside₂
      have hundone₂ : standing ((perform i (.endUndo id record.position) (.ok output)
          t).2.view id).log record.position = some .undone := by
        rw [perform, view_note_self]
        exact standing_acted rfl
      have hbelow₂ : Below remaining (undoings i ((perform i (.endUndo id record.position)
          (.ok output) t).2.view id).log) := by
        rw [perform, view_note_self, View.note_log, undoings_of_plain rfl, undoings_of_own hown]
        exact hbelow₁
      change SafeBack id plan first i (PassedBack id first i)
        (mark id (record.position, step.key) .undone none >>= fun _ ↦
          undoEach id acted remaining (undone ++ [step.key])).run _
      generalize (perform i (.endUndo id record.position) (.ok output) t).2 = w₂ at *
      -- The undo is written down.
      refine safeBack_beside hentitled₂ rfl (fun v hbeside hown _ ↦ ?_)
        fun t choice hbeside hown _ _ hentitled₃ hbeside₃ ↦ ?_
      · exact ⟨hbeside.undone _ hundone₂, (hback₂.beside hbeside).acted record hrecord⟩
      refine ih htail hentitled₃ ?_ ?_
      · have hundone₃ := hbeside₃.undone _ (hbeside.undone _ hundone₂)
        exact ((hback₂.beside hbeside).beside hbeside₃).tail fun _ ↦ hundone₃
      · rw [view_markStep, View.note_log, undoings_of_plain rfl, View.markStep_log,
          undoings_of_own hown]
        exact hbelow₂
    · rename_i hany
      refine ih htail hentitled (hback.tail fun hstarted ↦ ?_)
        fun earlier hmem entry hentry ↦ hbelow earlier hmem entry (List.mem_cons_of_mem _ hentry)
      rcases hback.ahead position hstarted with hundone | ⟨⟨record, hrecord, hposition⟩, _⟩
      · exact hundone
      · exact absurd (List.any_eq_true.mpr ⟨record, hrecord, decide_eq_true hposition⟩) hany

theorem positioned_sorted (plan : Plan) :
    plan.positioned.reverse.Pairwise fun a b ↦ b.2 < a.2 := by
  have hindices : (plan.positioned.map Prod.snd).Pairwise (· < ·) := by
    rw [Plan.positioned, List.zipIdx_map_snd]
    exact List.pairwise_lt_range'
  exact List.pairwise_reverse.mpr (List.pairwise_map.mp hindices)

/-- What the journal says may have acted is all a pass has to look at. -/
theorem RollingBack.back (h : RollingBack plan v)
    (hlive : v.state = some .running ∨ v.state = some .rolledBack) :
    Back (v.steps.values.filter fun row ↦ row.state.mayHaveActed) plan.positioned.reverse v := by
  refine ⟨hlive, fun position hstarted ↦ ?_, fun record hrecord ↦ ?_⟩
  · obtain ⟨row, hrow⟩ := Option.ne_none_iff_exists'.mp ((h.rows position).mp hstarted)
    by_cases hstate : row.state = .undone
    · exact .inl (h.undone position row hrow hstate)
    · refine .inr ⟨⟨row, List.mem_filter.mpr ⟨Table.mem_values_iff.mpr ⟨position, hrow⟩, ?_⟩,
        h.placed position row hrow⟩, ?_⟩
      · cases hrow : row.state with
        | undone => exact absurd hrow hstate
        | _ => rfl
      · have hlt := h.within position hstarted
        exact ⟨plan.steps[position], List.mem_reverse.mpr
          (Plan.mem_positioned_iff.mpr (List.getElem?_eq_getElem hlt))⟩
  · obtain ⟨position, hrow⟩ := Table.mem_values_iff.mp (List.mem_filter.mp hrecord).1
    rw [h.placed position record hrow]
    exact (h.rows position).mpr (by simp [hrow])

/-- A pass over the steps. Assumes: the process began no undo of the operation before. -/
theorem safeBack_undoSteps (hentitled : Entitled first i w)
    (hlive : (w.view id).state = some .running ∨ (w.view id).state = some .rolledBack)
    (hnone : undoings i (w.view id).log = []) :
    SafeBack id plan first i (PassedBack id first i) (undoSteps id plan).run w := by
  refine safeBack_beside hentitled rfl (fun _ _ _ _ ↦ trivial)
    fun t _ hbeside hown hrolling _ hentitled' _ ↦ ?_
  refine safeBack_undoEach (positioned_sorted plan) hentitled' (hrolling.back ?_) ?_
  · rcases hbeside.state with heq | ⟨_, hback⟩
    · rwa [heq]
    · exact .inr hback
  · change Below _ (undoings i (t.view id).log)
    rw [undoings_of_own hown, hnone]
    intro earlier hmem
    cases hmem

/-- The row is `rolled_back`, and stays so. -/
def RolledBack (id : OperationId) (first i : Process) (w : World) : Prop :=
  Entitled first i w ∧ (w.view id).state = some .rolledBack

theorem RolledBack.rely (h : RolledBack id first i w)
    (hrely : (backContract id plan first).rely i w w') : RolledBack id first i w' := by
  obtain ⟨hentitled, hbeside, _⟩ := h.1.rely hrely
  refine ⟨hentitled, ?_⟩
  rcases hbeside.state with heq | ⟨_, hback⟩
  · exact heq.trans h.2
  · exact hback

/-- Closing an operation all of whose started steps stand undone. -/
theorem safeBack_close {kind : String} {result : Except Error Undone}
    (hpassed : PassedBack id first i result w) :
    SafeBack id plan first i (fun _ ↦ RolledBack id first i) (close id kind .rolledBack).run w := by
  obtain ⟨_, hentitled, hlive, hundone⟩ := hpassed
  refine safeBack_beside hentitled rfl (fun v hbeside _ _ ↦ ?_)
    fun t choice hbeside _ _ _ hentitled' _ ↦ ?_
  · exact ⟨rfl, fun position hstarted ↦
      hbeside.undone position (hundone position ((hbeside.started position).mp hstarted))⟩
  have hclosed : RolledBack id first i (perform i (.finish id .rolledBack) choice t).2 := by
    refine ⟨hentitled', ?_⟩
    by_cases hrunning : (t.view id).state = some .running
    · rw [(perform_finish_open _ .rolledBack choice hrunning).2]
      simp [View.move_state, hrunning]
    · rw [perform_finish_closed .rolledBack choice hrunning]
      rcases hbeside.state with heq | ⟨_, hback⟩
      · rw [heq] at hrunning ⊢
        exact hlive.resolve_left hrunning
      · exact hback
  generalize perform i (.finish id .rolledBack) choice t = answered at *
  obtain ⟨_ | _, u⟩ := answered
  · exact fun s hs _ ↦ hclosed.rely hs
  · exact fun s hs _ ↦ hclosed.rely hs

/-- A pass, and what follows it: the row is closed, and something is answered. -/
theorem safeBack_pass {α : Type} {next : Undone → Run α} (hentitled : Entitled first i w)
    (hlive : (w.view id).state = some .running ∨ (w.view id).state = some .rolledBack)
    (hnone : undoings i (w.view id).log = [])
    (hnext : ∀ keys t, PassedBack id first i (.ok (.all keys)) t →
      SafeBack id plan first i (fun _ ↦ RolledBack id first i) (next (.all keys)).run t) :
    SafeBack id plan first i (fun _ ↦ RolledBack id first i)
      (undoSteps id plan >>= next).run w := by
  refine safe_attempt_bind ((safeBack_undoSteps hentitled hlive hnone).mono fun result t hpassed ↦ ?_)
  obtain ⟨keys, rfl⟩ := hpassed.1
  exact hnext keys t hpassed

theorem safeBack_undoApplied (hentitled : Entitled first i w)
    (hlive : (w.view id).state = some .running ∨ (w.view id).state = some .rolledBack)
    (hnone : undoings i (w.view id).log = []) :
    SafeBack id plan first i (fun _ ↦ RolledBack id first i) (undoApplied id plan).run w :=
  safeBack_pass hentitled hlive hnone fun _ _ hpassed ↦ safeBack_close hpassed

theorem safeBack_rollBack (hentitled : Entitled first i w)
    (hlive : (w.view id).state = some .running ∨ (w.view id).state = some .rolledBack)
    (hnone : undoings i (w.view id).log = []) :
    SafeBack id plan first i (fun _ ↦ RolledBack id first i) (rollBack id plan).run w := by
  refine safeBack_pass hentitled hlive hnone fun keys t hpassed ↦ ?_
  refine safe_attempt_bind ((safeBack_close hpassed).mono fun result u hclosed ↦ ?_)
  cases result with
  | ok value => exact fun s hs _ ↦ hclosed.rely hs
  | error error => exact fun s hs _ ↦ hclosed.rely hs

end Rules

end Nodal.Lifecycle
