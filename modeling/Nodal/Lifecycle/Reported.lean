import Nodal.Lifecycle.Unforgotten

/-!
# A failed undo is reported until it is undone

The histories of an operation that rolls back, in which its undos may fail any number of times, in
the run itself and in every resolve after it. `reported_until_undone` says what holds of them while
no process closes the row as `failed` with something left to undo, none ends between an undo that
succeeded and its row in the journal, and whoever finds the operation finds it running with nobody
inside. `failed_undo_is_forgotten` is the history that the first condition leaves out.
-/

set_option autoImplicit false

namespace Nodal.Lifecycle

open Nodal.Foundation Nodal.Foundation.Attempt

/-! ### What a resolve reports -/

section Reports

variable {here : Owner} {rebuilders : List String} {id : OperationId}

/-- Every operation that is named has its line in the report. -/
def Lists (ids : List OperationId) (result : Except Error (List Resolution)) : Prop :=
  ∀ resolutions, result = .ok resolutions → ∀ id ∈ ids, ∃ r ∈ resolutions, r.id = id

theorem resolveEach_lists {rest : List Operation} {resolutions : List Resolution} :
    (resolveEach here rebuilders rest resolutions).run.Ends
      (Lists (resolutions.map Resolution.id ++ rest.map Operation.id)) := by
  induction rest generalizing resolutions with
  | nil =>
    rintro resolutions' ⟨⟩ id hid
    rw [List.map_nil, List.append_nil] at hid
    exact List.mem_map.mp hid
  | cons record rest ih =>
    refine ends_bind (Q := fun _ ↦ True) (Program.ends_of_forall fun _ ↦ trivial)
      (fun action _ ↦ ?_) fun error _ resolutions' heq ↦ (nomatch heq)
    have hrest := @ih
      (resolutions ++ [{ id := record.id, kind := record.kind, subject := record.subject, action }])
    simpa using hrest

/-- The report of a resolve that has read the journal. -/
theorem called_lists {process : Process} :
    ∃ next : List Operation → Program Effect Effect.Answer (Except Error Report),
      (called process (.resolve rebuilders)).run = .perform .unfinished next ∧
      ∀ rows, (next rows).Ends fun result ↦ ∀ resolutions, result = .ok (.resolutions resolutions) →
        ∀ row ∈ rows, ∃ r ∈ resolutions, r.id = row.id := by
  refine ⟨_, rfl, fun rows ↦ ?_⟩
  refine ends_bind (x := resolveEach process.owner rebuilders rows [])
    (f := fun resolutions ↦ pure (Report.resolutions resolutions)) resolveEach_lists
    (fun resolutions hlists resolutions' heq row hrow ↦ ?_) fun error _ resolutions heq ↦ ?_
  · obtain rfl : resolutions = resolutions' := by
      cases heq
      rfl
    exact hlists resolutions rfl row.id (List.mem_map.mpr ⟨row, hrow, rfl⟩)
  · cases heq

end Reports

/-! ### The machine -/

/-- A step of a history in which a failed undo is not forgotten: the operation is run once and never
retried, `Fair` holds of what is done about it, and no process ends between an undo that succeeded
and its row in the journal. -/
def Remembering (id : OperationId) (plan : Plan) (first : Process) (c : Stage) : Happening → Prop
  | .enter i (.run other plan') => other = id → i = first ∧ plan' = plan
  | .enter _ (.retry other _) => other ≠ id
  | .enter _ (.resolve _) => True
  | .act i choice =>
    match c.running i with
    | some (.perform effect _) => Fair id plan i effect (choice effect) c.world
    | _ => True
  | .leave i => ∀ position, ¬Undid i position (c.world.view id)

section Machine

variable {id : OperationId} {plan : Plan} {first i : Process} {w w' : World} {c c' : Stage}
  {labels : List Happening}

theorem exists_of_insiders {log : Log} (h : i ∈ insiders log) : ∃ entry ∈ log, entry.1 = i := by
  induction log with
  | nil => cases h
  | cons entry log ih =>
    obtain ⟨process, event⟩ := entry
    have htail : i ∈ insiders log → ∃ entry ∈ (process, event) :: log, entry.1 = i := fun hi ↦ by
      obtain ⟨entry, hentry, rfl⟩ := ih hi
      exact ⟨entry, List.mem_cons_of_mem _ hentry, rfl⟩
    cases event with
    | started | reopened | found =>
      rcases List.mem_cons.mp h with rfl | hi
      · exact ⟨_, List.mem_cons_self, rfl⟩
      · exact htail hi
    | passed => exact htail (List.mem_filter.mp h).1
    | marked mark => exact htail h
    | acted position deed => exact htail h
    | closed state => cases h
    | committed outputs => cases h

theorem Recalled.seen (h : Recalled id plan w) (hi : i ∈ insiders (w.view id).log) : i ∈ w.past := by
  obtain ⟨entry, hentry, rfl⟩ := exists_of_insiders hi
  exact h.known entry hentry

/-- Processes come and go. Assumes: nobody goes whose undo is still to be written down, and nobody
comes who was here before. -/
theorem Recalled.of_view (h : Recalled id plan w) (hview : w'.view id = w.view id)
    (hpast : ∀ j ∈ w.past, j ∈ w'.past) (hstay : ∀ j position, Undid j position (w.view id) →
      j ∈ w.processes → j ∈ w'.processes)
    (hback : ∀ j ∈ w.past, j ∈ w'.processes → j ∈ w.processes) : Recalled id plan w' := by
  refine ⟨hview ▸ h.going, hview ▸ h.opened, fun j hj k hk hjlive hklive ↦ ?_, fun position hundone ↦ ?_,
    hview ▸ h.final, hview ▸ h.once, fun entry hentry ↦ ?_⟩
  · rw [hview] at hj hk
    exact h.one j hj k hk (hback j (h.seen hj) hjlive) (hback k (h.seen hk) hklive)
  · rw [hview] at hundone ⊢
    rcases h.written position hundone with hwritten | ⟨j, hj, hlive, hundid⟩
    · exact .inl hwritten
    · exact .inr ⟨j, hj, hstay j position hundid hlive, hundid⟩
  · exact hpast _ (h.known entry (hview ▸ hentry))

/-- No effect takes a row away. -/
theorem row_perform {effect : Effect} {choice : effect.Choice} (h : (w.view id).row ≠ none) :
    ((perform i effect choice w).2.view id).row ≠ none := by
  by_cases habout : effect.about = some id
  · cases effect with
    | start other plan' =>
      obtain rfl : other = id := Option.some.inj habout
      rw [view_start]
      simp
    | markStep other mark =>
      obtain rfl : other = id := Option.some.inj habout
      rw [view_markStep]
      exact h
    | finish other state =>
      obtain rfl : other = id := Option.some.inj habout
      by_cases hrunning : (w.view other).state = some .running
      · rw [(perform_finish_open i state choice hrunning).2]
        exact View.move_row_ne_none.mpr h
      · rw [perform_finish_closed state choice hrunning]
        exact h
    | reopen other =>
      obtain rfl : other = id := Option.some.inj habout
      by_cases hfailed : (w.view other).state = some .failed
      · rw [(perform_reopen_failed i choice hfailed).2]
        exact View.own_row_ne_none.mpr (View.move_row_ne_none.mpr h)
      · rw [perform_reopen_other choice hfailed]
        exact h
    | steps other | unfinished | snapshot other records kind => exact h
    | isRunning other pid =>
      rw [perform]
      split
      · exact h
      · exact h
    | rebuild rebuilders record =>
      simp only [perform]
      split
      · split
        · exact h
        · exact h
      · exact h
    | beginApply other position | beginUndo other position => exact h
    | endApply other position | endUndo other position => cases choice <;> exact h
    | commit other kind outputs =>
      obtain rfl : other = id := Option.some.inj habout
      cases choice with
      | error why => exact h
      | ok output =>
        by_cases hrunning : (w.view other).state = some .running
        · rw [(perform_commit_open i kind outputs output hrunning).2]
          exact View.move_row_ne_none.mpr h
        · rw [perform, if_neg (mt isOpen_iff.mp hrunning)]
          exact h
  · rw [view_perform_of_ne habout]
    exact h

/-- Whoever is beside the process that acts on the operation does not hold it. -/
theorem not_holds_beside {j : Process} {effect : Effect} {choice : effect.Choice}
    (h : Recalled id plan w) (howes : Owes plan first i effect (w.view id))
    (hfair : Fair id plan i effect choice w) (habout : About id effect) (hji : j ≠ i)
    (hlive : i ∈ w.processes) (hjlive : j ∈ w.processes) (hholds : Holds first j (w.view id)) :
    (perform i effect choice w).2.view id = w.view id := by
  have hnever : i ∈ insiders (w.view id).log → False := by
    intro hi
    rcases hholds with hj | ⟨_, hrow⟩
    · exact hji (h.one j hj i hi hjlive hlive)
    · exact h.row_of_inside hi hrow
  cases effect with
  | start other plan' =>
    obtain ⟨rfl, hrow, _⟩ := howes
    rcases hholds with hj | ⟨heq, _⟩
    · exact absurd hrow (h.row_of_inside hj)
    · exact absurd heq hji
  | isRunning other pid =>
    obtain rfl : other = id := Option.some.inj habout
    rw [perform]
    split
    · rfl
    · rename_i hgone
      obtain ⟨_, halone⟩ := hfair rfl (by simpa using hgone)
      rcases hholds with hj | ⟨_, hrow⟩
      · exact absurd hjlive (halone j hj hji)
      · exact absurd hrow howes.1
  | finish other state =>
    cases state with
    | failed => exact (hnever howes.1).elim
    | running => exact (hnever howes.1).elim
    | committed => exact (hnever howes.1).elim
    | rolledBack => exact (hnever howes.1).elim
  | unfinished => cases habout
  | _ => exact (hnever howes.1).elim

theorem own_perform {j : Process} {effect : Effect} {choice : effect.Choice} (hji : j ≠ i) :
    own j ((perform i effect choice w).2.view id).log = own j (w.view id).log := by
  rcases @perform_log w id i effect choice with hsame | ⟨event, hevent⟩
  · exact congrArg (own j) hsame
  · refine (congrArg (own j) hevent).trans ?_
    exact own_cons_of_ne hji.symm

/-- A process that enters keeps the contract. -/
theorem safeRecall_called {job : Job} (hrecovery : plan.recovery = .rollBack)
    (hjob : Remembering id plan first c (.enter i job)) (hown : own i (w.view id).log = [])
    (hrow : ∀ plan', job = .run id plan' → (w.view id).row = none) :
    SafeRecall id plan first i Anything (called i job).run w := by
  have hreport : ∀ {α : Type} {x : Run α} {report : α → Report},
      SafeRecall id plan first i Anything x.run w →
        SafeRecall id plan first i Anything (x >>= fun value ↦ pure (report value)).run w := by
    intro α x report hx
    refine safe_attempt_bind (hx.mono fun result t _ ↦ ?_)
    cases result with
    | ok _ => exact safeRecall_done
    | error _ => exact safeRecall_done
  have hstranger : ∀ {α : Type} {other : OperationId} {p : Program Effect Effect.Answer α},
      p.Uses (About other) → other ≠ id → SafeRecall id plan first i Anything p w := by
    intro α other p huses hother
    exact safeRecall_elsewhere huses hother (fun _ ↦ True) trivial (fun _ _ _ _ ↦ trivial)
      fun _ _ _ _ ↦ trivial
  cases job with
  | run other plan' =>
    by_cases hother : other = id
    · subst hother
      obtain ⟨rfl, rfl⟩ := hjob rfl
      exact hreport (safeRecall_run hrecovery (hrow plan' rfl))
    · exact hreport (hstranger run_uses hother)
  | retry other plan' => exact hreport (hstranger retry_uses hjob)
  | resolve rebuilders => exact hreport (safeRecall_resolve hown)

theorem recallSound (hrecovery : plan.recovery = .rollBack) :
    Sound machine (recallContract id plan first) (fun _ ↦ Anything)
      (fun c label ↦ Remembering id plan first c label ∧ Alive c) where
  assume {c i choice effect rest} hP hrunning := by
    have hfair := hP.1
    simp only [Remembering, hrunning] at hfair
    exact hfair
  act {c i choice effect rest} hP hrunning hinv hpre := by
    have hfair := hP.1
    simp only [Remembering, hrunning] at hfair
    obtain ⟨hlive, hseen, _⟩ := hP.2 i (by simp [hrunning])
    refine ⟨?_, fun j p hji hj ↦ .inl ⟨fun hholds ↦ ?_, own_perform hji, row_perform⟩⟩
    · by_cases habout : About id effect
      · exact hinv.perform hlive hseen habout (hpre habout) hfair
      · refine Recalled.of_view hinv (view_perform_of_ne habout _) ?_ ?_ ?_
        · exact fun j hj ↦ (perform_past (w := c.world) effect (choice effect)) ▸ hj
        · exact fun j _ _ hj ↦ (perform_processes (w := c.world) effect (choice effect)) ▸ hj
        · exact fun j _ hj ↦ (perform_processes (w := c.world) effect (choice effect)) ▸ hj
    · by_cases habout : About id effect
      · exact not_holds_beside hinv (hpre habout) hfair habout hji hlive
          (hP.2 j (by simp [hj])).1 hholds
      · exact view_perform_of_ne habout _
  enter {c i job world} hP _ hworld hinv := by
    have hview : world.view id = c.world.view id := view_arrive hworld
    obtain ⟨hnew, _, hprocesses, hpast⟩ := arrive_keeps hworld
    refine ⟨?_, safeRecall_called hrecovery hP.1 ?_ fun plan' hjob ↦ ?_,
      fun j _ _ _ ↦ .inl ⟨fun _ ↦ hview, congrArg (fun v ↦ own j v.log) hview, fun hrow ↦ hview ▸ hrow⟩⟩
    · refine Recalled.of_view hinv hview ?_ ?_ ?_
      · exact fun j hj ↦ hpast ▸ List.mem_cons_of_mem _ hj
      · exact fun j _ _ hj ↦ hprocesses ▸ List.mem_cons_of_mem _ hj
      · intro j hj hlive
        rcases List.mem_cons.mp (hprocesses ▸ hlive) with rfl | hlive
        · exact absurd hj hnew
        · exact hlive
    · rw [hview]
      refine List.filter_eq_nil_iff.mpr fun entry hentry hself ↦ hnew ?_
      exact of_decide_eq_true hself ▸ hinv.known entry hentry
    · subst hjob
      rw [hview]
      exact row_of_arrive_run (show arrive i (.run id plan') c.world = some world from hworld)
  leave {c i p} hP _ hinv := by
    refine ⟨?_, fun j _ _ _ ↦ .inl ⟨fun _ ↦ rfl, rfl, fun hrow ↦ hrow⟩⟩
    refine Recalled.of_view hinv rfl (fun _ hj ↦ hj) (fun j position hundid hj ↦ ?_)
      fun j _ hj ↦ (List.mem_filter.mp hj).1
    have hji : j ≠ i := fun heq ↦ hP.1 position (heq ▸ hundid)
    exact List.mem_filter.mpr ⟨hj, by simpa using hji⟩

/-- The machine before the operation is anything to it. -/
theorem Untouched.recalled (h : Untouched id w) : Recalled id plan w := by
  have hview : w.view id = ⟨none, ∅, []⟩ := h
  refine ⟨.inl (hview ▸ .untouched), fun _ ↦ hview, ?_, ?_, ?_, ?_, ?_⟩
  · rw [hview]
    intro j hj
    cases hj
  · rw [hview]
    intro position hundone
    cases hundone
  · rw [hview]
    intro process position hmem
    cases hmem
  · rw [hview]
    exact List.Pairwise.nil
  · rw [hview]
    intro entry hentry
    cases hentry

/-- A process that has read the journal reports what it read, for as long as it is there. -/
private theorem lists_exec {P : Except Error Report → Prop} (hexec : machine.exec c labels = some c')
    (hpast : i ∈ c.world.past) (hends : ∀ p, c.running i = some p → p.Ends P) :
    ∀ p, c'.running i = some p → p.Ends P := by
  have hstep : ∀ (c : Stage) label c', True → machine.next c label = some c' →
      (i ∈ c.world.past ∧ ∀ p, c.running i = some p → p.Ends P) →
      i ∈ c'.world.past ∧ ∀ p, c'.running i = some p → p.Ends P := by
    rintro c label c' - hnext ⟨hpast, hends⟩
    cases label with
    | enter j job =>
      obtain ⟨_, world, hworld, rfl⟩ := Machine.next_enter_eq_some.mp hnext
      obtain ⟨hnew, _, _, hpast'⟩ := arrive_keeps hworld
      have hji : i ≠ j := fun heq ↦ hnew (heq ▸ hpast)
      refine ⟨hpast' ▸ List.mem_cons_of_mem _ hpast, fun p hp ↦ hends p ?_⟩
      exact (Function.update_of_ne hji _ _).symm.trans hp
    | act j choice =>
      obtain ⟨effect, rest, hrunning, rfl⟩ := Machine.next_act_eq_some.mp hnext
      refine ⟨(perform_past (w := c.world) effect (choice effect)).symm ▸ hpast, fun p hp ↦ ?_⟩
      by_cases hji : i = j
      · subst hji
        change Function.update c.running i _ i = some p at hp
        rw [Function.update_self] at hp
        obtain rfl := Option.some.inj hp
        exact hends _ hrunning _
      · exact hends p ((Function.update_of_ne hji _ _).symm.trans hp)
    | leave j =>
      obtain ⟨_, _, rfl⟩ := Machine.next_leave_eq_some.mp hnext
      refine ⟨hpast, fun p hp ↦ ?_⟩
      by_cases hji : i = j
      · subst hji
        change Function.update c.running i none i = some p at hp
        rw [Function.update_self] at hp
        cases hp
      · exact hends p ((Function.update_of_ne hji _ _).symm.trans hp)
  have halong : machine.Along (fun _ _ ↦ True) c labels :=
    (Machine.along_of_labels (L := fun _ ↦ True) fun _ _ ↦ trivial).mono fun _ _ _ ↦ trivial
  exact (Machine.exec_induction hstep halong hexec ⟨hpast, hends⟩).2

/-- Something is left to undo, of an operation that did not commit. -/
def Pending (v : View) : Prop := Outstanding v ∧ v.state ≠ some .committed

theorem Recalled.unfinished (h : Recalled id plan w) (hpending : Pending (w.view id)) :
    ∃ row ∈ w.journal.unfinished, row.id = id := by
  obtain ⟨⟨position, hstarted, hleft⟩, hopen⟩ := hpending
  have hrolling := h.rolling_of_started hstarted
  have hrow : (w.view id).row ≠ none := by
    intro hnone
    obtain ⟨_, _, hmem, _⟩ := hstarted
    rw [h.opened hnone] at hmem
    cases hmem
  obtain ⟨row, hrow⟩ := Option.ne_none_iff_exists'.mp hrow
  have hstate : (w.view id).state = some row.state := congrArg (Option.map Operation.state) hrow
  have hid : row.id = id := w.journal.keyed id row hrow
  have hrunning : row.state = .running := by
    cases hcase : row.state with
    | running => rfl
    | committed => exact absurd (hcase ▸ hstate) hopen
    | rolledBack => exact absurd (hrolling.rolledBack (hcase ▸ hstate) position hstarted) hleft
    | failed => exact absurd (hcase ▸ hstate) hrolling.notFailed
  exact ⟨row, Journal.mem_unfinished_iff.mpr ⟨hid.symm ▸ hrow, hrunning⟩, hid⟩

/-- A failed undo is not forgotten. In every history of an operation that rolls back: where the row is
`rolled_back`, every step that may have acted has had an undo that succeeded since, and where it is
`committed` no undo was begun; until then the operation is among those every resolve reads, and a
resolve that read the journal then and answers has a line for it; and no step whose undo succeeded
has it repeated. Assumes: nobody was alive and nothing was done about the operation when the history
began, and every step is one of `Remembering`. -/
theorem reported_until_undone {c₀ : Stage} (hrecovery : plan.recovery = .rollBack) (hidle : Idle c₀)
    (huntouched : Untouched id c₀.world) (halong : machine.Along (Remembering id plan first) c₀ labels)
    (hexec : machine.exec c₀ labels = some c) :
    ((c.world.view id).state = some .rolledBack → ¬Outstanding (c.world.view id)) ∧
    ((c.world.view id).state = some .committed → NoUndo (c.world.view id).log) ∧
    (Pending (c.world.view id) → ∃ row ∈ c.world.journal.unfinished, row.id = id) ∧
    (∀ before process choice after c₁ rebuilders resolutions,
      labels = before ++ .act process choice :: after → machine.exec c₀ before = some c₁ →
      c₁.running process = some (called process (.resolve rebuilders)).run →
      Pending (c₁.world.view id) →
      c.running process = some (.done (.ok (.resolutions resolutions))) →
      ∃ r ∈ resolutions, r.id = id) ∧
    Once (c.world.view id).log := by
  have hstart : Guarded machine (recallContract id plan first) (fun _ ↦ Anything) c₀ :=
    ⟨huntouched.recalled, fun i p hp ↦ by rw [hidle i] at hp; cases hp⟩
  have halive : Alive c₀ := fun i hi ↦ absurd (hidle i) hi
  have hguards : ∀ {c : Stage} {labels}, machine.Along (Remembering id plan first) c₀ labels →
      machine.exec c₀ labels = some c → Recalled id plan c.world ∧ Alive c := by
    intro c labels halong hexec
    have hboth := halong.and_invariant (fun _ _ _ _ ↦ alive_next) halive
    exact ⟨((recallSound hrecovery).guarded_exec hboth hexec hstart).1,
      Machine.exec_induction (fun _ _ _ _ ↦ alive_next) halong hexec halive⟩
  obtain ⟨hrecalled, _⟩ := hguards halong hexec
  refine ⟨fun hstate houtstanding ↦ ?_, fun hstate ↦ ?_, hrecalled.unfinished, ?_, hrecalled.once⟩
  · obtain ⟨position, hstarted, hleft⟩ := houtstanding
    exact hleft ((hrecalled.rolling_of_started hstarted).rolledBack hstate position hstarted)
  · rcases hrecalled.going with hrolling | hbarren
    · exact (hrolling.committed hstate).1
    · rw [hbarren.failed] at hstate
      cases hstate
  · rintro before process choice after c₁ rebuilders resolutions rfl hbefore hresolve hpending hdone
    obtain ⟨hrecalled₁, halive₁⟩ := hguards (Machine.along_append.mp halong).1 hbefore
    obtain ⟨row, hrow, hid⟩ := hrecalled₁.unfinished hpending
    obtain ⟨c₁', hc₁', hafter⟩ := Machine.exec_append_eq_some.mp hexec
    obtain rfl : c₁' = c₁ := Option.some.inj (hc₁'.symm.trans hbefore)
    obtain ⟨c₂, hread, hrest⟩ := Machine.exec_cons_eq_some.mp hafter
    obtain ⟨next, hprogram, hlists⟩ := @called_lists rebuilders process
    rw [hprogram] at hresolve
    obtain ⟨effect, rest, hrunning, rfl⟩ := Machine.next_act_eq_some.mp hread
    obtain ⟨rfl, heq⟩ := Program.perform.inj (Option.some.inj (hresolve.symm.trans hrunning))
    obtain rfl := eq_of_heq heq
    have hends := lists_exec hrest (P := fun result ↦ ∀ resolutions,
      result = .ok (.resolutions resolutions) → ∀ row ∈ c₁'.world.journal.unfinished,
        ∃ r ∈ resolutions, r.id = row.id) (i := process) (halive₁ process (by simp [hresolve])).2.1
      fun p hp ↦ by
        change Function.update c₁'.running process _ process = some p at hp
        rw [Function.update_self] at hp
        obtain rfl := Option.some.inj hp
        exact hlists _
    exact hid ▸ hends _ hdone resolutions rfl row hrow

end Machine

/-! ### A failed undo that is forgotten -/

/-- The registry write fails, and so does every undo. -/
def stuckUndo : (effect : Effect) → effect.Choice :=
  choosing (.ok buildOrNothing) (fun _ ↦ .ok .null) (fun _ ↦ .error "busy") (.error "disk full")

/-- A run whose undo fails, so many effects of it, and a resolve after it. -/
def undoFails (effects : ℕ) : List Happening :=
  .enter (nth 1) (.run 0 buildOrNothing) :: (List.replicate effects (.act (nth 1) stuckUndo) ++
    [.leave (nth 1), .enter (nth 2) (.resolve ["build"])])

/-- How many lines the report of a process has. -/
def reportedLines (c : Stage) (process : Process) : Option ℕ :=
  match c.running process with
  | some (.done (.ok (.resolutions resolutions))) => some resolutions.length
  | _ => none

theorem of_reportedLines {c : Stage} {process : Process} {n : ℕ}
    (h : reportedLines c process = some n) : ∃ resolutions : List Resolution,
      c.running process = some (.done (.ok (.resolutions resolutions))) ∧ resolutions.length = n := by
  unfold reportedLines at h
  split at h
  · rename_i resolutions hrunning
    exact ⟨resolutions, hrunning, Option.some.inj h⟩
  · cases h

/-- Whether a step was written down as being attempted, and stands otherwise than undone. -/
def isOutstanding (log : Log) (position : ℕ) : Bool :=
  (log.any fun entry ↦
    match entry.2 with
    | .marked mark => mark.position = position && mark.state = .applying
    | _ => false) && standing log position ≠ some .undone

theorem outstanding_of_is {v : View} {position : ℕ} (h : isOutstanding v.log position = true) :
    Outstanding v := by
  obtain ⟨hany, hstanding⟩ := (Bool.and_eq_true _ _).mp h
  obtain ⟨⟨process, event⟩, hmem, hmark⟩ := List.any_eq_true.mp hany
  refine ⟨position, ?_, of_decide_eq_true hstanding⟩
  cases event with
  | marked mark =>
    obtain ⟨hposition, hstate⟩ := (Bool.and_eq_true _ _).mp hmark
    exact ⟨process, mark, hmem, of_decide_eq_true hposition, of_decide_eq_true hstate⟩
  | _ => cases hmark

/-- A resolve that reads the journal with a step left to undo, and reports nothing: the process whose
undo failed closed the row as `failed`. -/
theorem failed_undo_is_forgotten : ∃ c₁ c : Stage, buildOrNothing.recovery = .rollBack ∧
    machine.exec beginning (undoFails 14) = some c₁ ∧
    c₁.running (nth 2) = some (called (nth 2) (.resolve ["build"])).run ∧
    Pending (c₁.world.view 0) ∧ (c₁.world.view 0).state = some .failed ∧
    machine.exec c₁ [.act (nth 2) stuckUndo] = some c ∧
    c.running (nth 2) = some (.done (.ok (.resolutions []))) := by
  have hexec : (machine.exec beginning (undoFails 14 ++ [.act (nth 2) stuckUndo])).map (fun c ↦
      reportedLines c (nth 2)) = some (some 0) := by
    decide +kernel
  have hbefore : (machine.exec beginning (undoFails 14)).map (fun c ↦
      ((c.world.view 0).state, isOutstanding (c.world.view 0).log 1)) = some (some .failed, true) := by
    decide +kernel
  obtain ⟨c, hc, hlines⟩ := Option.map_eq_some_iff.mp hexec
  obtain ⟨c₁, hc₁, hview⟩ := Option.map_eq_some_iff.mp hbefore
  obtain ⟨hstate, houtstanding⟩ := Prod.mk.inj hview
  obtain ⟨c₁', hc₁', hread⟩ := Machine.exec_append_eq_some.mp hc
  obtain rfl : c₁' = c₁ := Option.some.inj (hc₁'.symm.trans hc₁)
  obtain ⟨resolutions, hdone, hlength⟩ := of_reportedLines hlines
  obtain rfl := List.eq_nil_of_length_eq_zero hlength
  refine ⟨c₁', c, rfl, hc₁, ?_, ⟨outstanding_of_is houtstanding, by simp [hstate]⟩, hstate, hread,
    hdone⟩
  -- The resolver has just entered.
  have hsplit : undoFails 14 = (.enter (nth 1) (.run 0 buildOrNothing) ::
      (List.replicate 14 (.act (nth 1) stuckUndo) ++ [.leave (nth 1)])) ++
        [.enter (nth 2) (.resolve ["build"])] := by
    simp [undoFails]
  rw [hsplit] at hc₁
  obtain ⟨c₀, _, hlast⟩ := exec_concat_eq_some.mp hc₁
  obtain ⟨_, world, _, rfl⟩ := Machine.next_enter_eq_some.mp hlast
  change Function.update c₀.running (nth 2) _ (nth 2) = _
  rw [Function.update_self]
  rfl

/-! ### A failed undo that is not -/

/-- The process dies after its undo failed, and the next one undoes what is left. -/
def undoneLater : List Happening := undoFails 13 ++ List.replicate 11 (.act (nth 2) diskFull)

/-- What `Remembering` asks of the steps of that history, as far as it depends on the stage. -/
private def remembers (c : Stage) : Happening → Bool
  | .act i _ =>
    match c.running i with
    | some (.perform (.isRunning _ _) _) =>
      (c.world.view 0).state = some .running && c.world.processes.all fun j ↦ j = i
    | some (.perform (.finish _ state) _) => state ≠ .failed
    | _ => true
  | .leave _ =>
    match (c.world.view 0).log.head? with
    | some (_, .acted _ .undone) => false
    | _ => true
  | .enter _ _ => true

private def startsOrRetries : Happening → Bool
  | .enter _ (.run _ _) | .enter _ (.retry _ _) => true
  | _ => false

private theorem remembering_of_remembers {c : Stage} {label : Happening} (h : remembers c label = true)
    (hlabel : Follows 0 buildOrNothing (fun _ _ ↦ True) label)
    (henter : ∀ i, (∀ plan, label = .enter i (.run 0 plan) → i = nth 1) ∧
      ∀ plan, label ≠ .enter i (.retry 0 plan)) :
    Remembering 0 buildOrNothing (nth 1) c label := by
  cases label with
  | enter i job =>
    cases job with
    | run other plan =>
      rintro rfl
      exact ⟨(henter i).1 plan rfl, hlabel rfl⟩
    | retry other plan =>
      rintro rfl
      exact (henter i).2 plan rfl
    | resolve rebuilders => trivial
  | act i choice =>
    simp only [Remembering, remembers] at h ⊢
    split
    · rename_i effect rest hrunning
      rw [hrunning] at h
      cases effect with
      | isRunning other pid =>
        obtain ⟨hstate, hall⟩ := (Bool.and_eq_true _ _).mp h
        refine fun _ _ ↦ ⟨of_decide_eq_true hstate, fun j _ hji hlive ↦ hji ?_⟩
        exact of_decide_eq_true (List.all_eq_true.mp hall j hlive)
      | finish other state => exact fun _ hfailed ↦ absurd hfailed (of_decide_eq_true h)
      | rebuild rebuilders record => exact fun hid plan' heq ↦ hlabel.2 rebuilders record plan' hid heq
      | _ => trivial
    · trivial
  | leave i =>
    intro position hundid
    simp only [remembers] at h
    rw [show (c.world.view 0).log.head? = some (i, .acted position .undone) from hundid] at h
    cases h

private theorem along_undoneLater :
    machine.Along (Remembering 0 buildOrNothing (nth 1)) beginning undoneLater := by
  have hstages : machine.Along (fun c label ↦ remembers c label = true) beginning undoneLater := by
    decide +kernel
  have hrebuilt : ∀ plan', (Except.ok buildOrNothing : Except String Plan) = .ok plan' →
      plan' = buildOrNothing := fun plan' heq ↦ (Except.ok.inj heq).symm
  have hran : ∀ i, (∀ plan, (.enter (nth 1) (.run 0 buildOrNothing) : Happening) =
      .enter i (.run 0 plan) → i = nth 1) ∧
        ∀ plan, (.enter (nth 1) (.run 0 buildOrNothing) : Happening) ≠ .enter i (.retry 0 plan) := by
    refine fun i ↦ ⟨fun plan heq ↦ ?_, fun plan heq ↦ ?_⟩
    · cases heq
      rfl
    · cases heq
  have hneither : ∀ {label : Happening}, startsOrRetries label = false → ∀ i,
      (∀ plan, label = .enter i (.run 0 plan) → i = nth 1) ∧
        ∀ plan, label ≠ .enter i (.retry 0 plan) := by
    refine fun hlabel i ↦ ⟨fun plan heq ↦ ?_, fun plan heq ↦ ?_⟩
    · cases heq ▸ hlabel
    · cases heq ▸ hlabel
  have hlabels : ∀ label ∈ undoneLater, Follows 0 buildOrNothing (fun _ _ ↦ True) label ∧
      ∀ i, (∀ plan, label = .enter i (.run 0 plan) → i = nth 1) ∧
        ∀ plan, label ≠ .enter i (.retry 0 plan) := by
    intro label hlabel
    simp only [undoneLater, undoFails, List.cons_append, List.append_assoc, List.mem_cons,
      List.mem_append, List.mem_replicate, List.nil_append] at hlabel
    rcases hlabel with rfl | ⟨_, rfl⟩ | rfl | rfl | ⟨_, rfl⟩
    · exact ⟨follows_run, hran⟩
    · exact ⟨follows_choosing hrebuilt fun _ _ _ ↦ trivial,
        hneither rfl⟩
    · exact ⟨trivial, hneither rfl⟩
    · exact ⟨follows_resolve, hneither rfl⟩
    · exact ⟨follows_choosing hrebuilt fun _ _ _ ↦ trivial,
        hneither rfl⟩
  exact (hstages.and hlabels).mono fun c label h ↦ remembering_of_remembers h.1 h.2.1 h.2.2

/-- `reported_until_undone` at that history: both steps are undone, and neither twice. -/
theorem reported_until_undone_undoneLater : ∃ c : Stage,
    machine.exec beginning undoneLater = some c ∧
    (c.world.view 0).state = some .rolledBack ∧ ¬Outstanding (c.world.view 0) ∧
    Once (c.world.view 0).log := by
  have hexec : (machine.exec beginning undoneLater).map (fun c ↦ (c.world.view 0).state) =
      some (some .rolledBack) := by
    decide +kernel
  obtain ⟨c, hc, hstate⟩ := Option.map_eq_some_iff.mp hexec
  obtain ⟨hback, _, _, _, honce⟩ := reported_until_undone
    (show buildOrNothing.recovery = .rollBack from rfl) (fun _ ↦ rfl) untouched_beginning
    along_undoneLater hc
  exact ⟨c, hc, hstate, hback hstate, honce⟩

end Nodal.Lifecycle
