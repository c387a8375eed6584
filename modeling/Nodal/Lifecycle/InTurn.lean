import Nodal.Lifecycle.Staged

/-!
# Steps applied in their turn, beside other processes

The steps of an operation while others act on the same things. A step may count on what the steps
before it led to (`stands`) as far as the others leave it alone; an undo may count only on what the
process itself never loses (`holds`).
-/

set_option autoImplicit false

namespace Nodal.Lifecycle

open Nodal.Foundation Nodal.Foundation.Attempt

variable {G σ : Type} {A C : G → Type}

/-- What a process never loses: the others leave it alone, no undo takes it away, and neither does the
registry write. -/
structure Undoable (performance : Performance G σ A C) (K : Contract Process σ G C)
    (process : Process) (deeds : Deeds G A) (holds : σ → Prop) : Prop where
  relies : ∀ s t, K.rely process s t → K.inv t → holds s → holds t
  undoes : ∀ k s, holds s → Safe performance.beside K process (fun _ ↦ holds) (deeds.undo k) s
  registers : ∀ id outputs s output s',
    performance.register id outputs s = .ok (output, s') → s' = s

/-- The steps of a plan of `n` steps, each applied in its turn. -/
structure InTurn (performance : Performance G σ A C) (K : Contract Process σ G C)
    (process : Process) (deeds : Deeds G A) (n : ℕ) (holds : σ → Prop) (stands : ℕ → σ → Prop) : Prop
    extends Undoable performance K process deeds holds where
  stays : ∀ k s t, K.rely process s t → K.inv t → stands k s → stands k t
  begins : ∀ s, stands 0 s → holds s
  snapshot : ∀ s, stands 0 s → Safe performance.beside K process
    (fun result s ↦ holds s ∧ ∀ taken, result = .ok taken → stands 0 s) deeds.snapshot s
  applies : ∀ k < n, ∀ s, stands k s → holds s → Safe performance.beside K process
    (fun result s ↦ holds s ∧ ∀ output, result = .ok output → stands (k + 1) s) (deeds.apply k) s

section Programs

variable {performance : Performance G σ A C} {K : Contract Process σ G C} {deeds : Deeds G A}
  {J α β : Type} {M : Machine Process J (Performed σ) (Act G) (Act.Answer A) (Act.Choice C) α}
  {process : Process} {w : Performed σ} {holds : σ → Prop} {stands : ℕ → σ → Prop} {n : ℕ}
  {id : OperationId} {plan : Plan}

/-- A statement of the journal leaves what the others leave alone. -/
theorem safe_stated_whole (hM : M.perform = performance.perform) {effect : Effect} {P : σ → Prop}
    (hregisters : ∀ id outputs s output s',
      performance.register id outputs s = .ok (output, s') → s' = s)
    (hstays : ∀ s t, K.rely process s t → K.inv t → P s → P t) (h : P w.outside) :
    Safe M (whole K) process (fun _ w' ↦ P w'.outside) (.perform (.journal effect) .done) w := by
  intro t hrely hinv
  refine ⟨trivial, fun choice _ u hafter hinv' ↦ hstays _ _ hafter hinv' ?_⟩
  have hkept : (M.perform process (.journal effect) choice t).2.outside = t.outside := by
    rw [hM]
    rcases outside_stated performance process t effect choice with
      heq | ⟨id, outputs, output, s, hregister, heq⟩
    · exact heq
    · rw [heq]
      exact hregisters _ _ _ _ _ hregister
  rw [hkept]
  exact hstays _ _ hrely hinv h

/-- What takes a run back keeps what the process never loses. -/
theorem Undoable.safe_takingBack (hM : M.perform = performance.perform)
    (hdeeds : Undoable performance K process deeds holds) {x : Run β} (huses : x.run.Uses TakingBack)
    (hholds : holds w.outside) :
    Safe M (whole K) process (fun _ w' ↦ holds w'.outside) (operated deeds x).run w := by
  rw [operated_run]
  generalize x.run = p at huses
  induction p generalizing w with
  | done value => exact fun t hrely hinv ↦ hdeeds.relies _ _ hrely hinv hholds
  | perform effect next ih =>
    have hstated : Safe M (whole K) process (fun _ w' ↦ holds w'.outside)
        (.perform (.journal effect) .done) w :=
      safe_stated_whole hM hdeeds.registers hdeeds.relies hholds
    have hhandled : Safe M (whole K) process (fun _ w' ↦ holds w'.outside) (handled deeds effect) w := by
      cases effect with
      | snapshot _ _ _ | endApply _ _ | commit _ _ _ => exact huses.1.elim
      | beginApply _ _ | beginUndo _ _ => exact fun t hrely hinv ↦ hdeeds.relies _ _ hrely hinv hholds
      | endUndo other position => exact safe_outside_whole hM (hdeeds.undoes position _ hholds)
      | _ => exact hstated
    rw [Program.interpret_perform]
    exact safe_bind (hhandled.mono fun answer w' hw' ↦ ih answer hw' (huses.2 answer))

/-- The loop that applies the steps, from step `k` on. -/
theorem InTurn.safe_applySteps (hM : M.perform = performance.perform)
    (hturn : InTurn performance K process deeds n holds stands) {kind : String}
    {failing : ℕ × String → Error → Run Unit}
    (hfailing : ∀ step why, (failing step why).run.Uses TakingBack) {steps : List Step} {k : ℕ}
    (hk : k + steps.length = n) {outputs : Outputs} {applied : List String}
    (hstands : stands k w.outside) (hholds : holds w.outside) :
    Safe M (whole K) process (fun _ w' ↦ holds w'.outside)
      (operated deeds (applySteps id kind [] failing (steps.zipIdx k) outputs applied)).run w := by
  have hmarked (k : ℕ) (effect : Effect) {w : Performed σ} (h : stands k w.outside ∧ holds w.outside) :
      Safe M (whole K) process (fun _ w' ↦ stands k w'.outside ∧ holds w'.outside)
        (.perform (.journal effect) .done) w :=
    safe_stated_whole (P := fun s ↦ stands k s ∧ holds s) hM hturn.registers
      (fun s t hrely hinv h ↦ ⟨hturn.stays k s t hrely hinv h.1, hturn.relies s t hrely hinv h.2⟩) h
  induction steps generalizing k outputs applied w with
  | nil => exact fun t hrely hinv ↦ hturn.relies _ _ hrely hinv hholds
  | cons step steps ih =>
    have hlt : k < n := by
      rw [← hk, List.length_cons]
      omega
    rw [List.zipIdx_cons]
    unfold applySteps
    rw [if_neg List.not_mem_nil, operated_bind]
    refine safe_attempt_bind (safe_bind ((hmarked k _ ⟨hstands, hholds⟩).mono
      fun _ w₁ hattempted ↦ safe_of_rely fun w₂ hrely hinv ↦ fun w₃ hrely' hinv' ↦ ?_))
    have hready : stands k w₃.outside ∧ holds w₃.outside :=
      ⟨hturn.stays k _ _ hrely' hinv' (hturn.stays k _ _ hrely hinv hattempted.1),
        hturn.relies _ _ hrely' hinv' (hturn.relies _ _ hrely hinv hattempted.2)⟩
    dsimp only
    rw [operated_bind]
    refine safe_attempt_bind ?_
    rw [operated_apply]
    refine safe_bind ((safe_outside_whole hM (hturn.applies k hlt _ hready.1 hready.2)).mono
      fun answer w₄ hanswer ↦ fun w₅ hrely₅ hinv₅ ↦ ?_)
    have hheld : holds w₅.outside := hturn.relies _ _ hrely₅ hinv₅ hanswer.1
    dsimp only
    cases answer with
    | error source =>
      rw [operated_bind]
      refine safe_attempt_bind ((hturn.safe_takingBack hM (hfailing _ _) hheld).mono
        fun result w₆ hw₆ ↦ ?_)
      cases result <;> exact fun t hrely hinv ↦ hturn.relies _ _ hrely hinv hw₆
    | ok output =>
      have hnext := hturn.stays _ _ _ hrely₅ hinv₅ (hanswer.2 output rfl)
      dsimp only
      rw [operated_bind]
      refine safe_attempt_bind (safe_bind ((hmarked (k + 1) _ ⟨hnext, hheld⟩).mono
        fun _ w₆ happlied ↦ safe_of_rely fun w₇ hrely₇ hinv₇ ↦ fun w₈ hrely₈ hinv₈ ↦ ?_))
      refine ih ?_ (hturn.stays _ _ _ hrely₈ hinv₈ (hturn.stays _ _ _ hrely₇ hinv₇ happlied.1))
        (hturn.relies _ _ hrely₈ hinv₈ (hturn.relies _ _ hrely₇ hinv₇ happlied.2))
      rw [← hk, List.length_cons]
      omega

/-- The registry write, made or not. -/
theorem Undoable.safe_commit (hM : M.perform = performance.perform)
    (hdeeds : Undoable performance K process deeds holds) {outputs : Outputs}
    (hholds : holds w.outside) : Safe M (whole K) process (fun _ w' ↦ holds w'.outside)
      (operated deeds (commit id plan outputs)).run w := by
  have hwritten : Safe M (whole K) process (fun _ w' ↦ holds w'.outside)
      (.perform (.journal (.commit id plan.kind outputs)) .done) w :=
    safe_stated_whole hM hdeeds.registers hdeeds.relies hholds
  have hrun : (operated deeds (commit id plan outputs)).run =
      (Program.perform (Act.journal (.commit id plan.kind outputs)) .done >>=
        fun committed : Except Error Output ↦ .done committed) := by
    refine congrArg (Program.perform _) (funext fun committed ↦ ?_)
    cases committed <;> rfl
  rw [hrun]
  refine safe_bind (hwritten.mono fun (committed : Except Error Output) w₁ hw₁ ↦ ?_)
  exact fun t hrely hinv ↦ hdeeds.relies _ _ hrely hinv hw₁

/-- The home is recorded, or there is none to record, or that failed. -/
theorem InTurn.safe_record (hM : M.perform = performance.perform)
    (hturn : InTurn performance K process deeds n holds stands) (hstands : stands 0 w.outside) :
    Safe M (whole K) process
      (fun result w' ↦ ∃ recorded, result = .ok recorded ∧ holds w'.outside ∧
        ∀ reference, recorded = .ok reference → stands 0 w'.outside)
      (operated deeds (record plan id)).run w := by
  unfold record
  split
  · refine fun t hrely hinv ↦ ?_
    have hstill := hturn.stays _ _ _ hrely hinv hstands
    exact ⟨_, rfl, hturn.begins _ hstill, fun _ _ ↦ hstill⟩
  · change Safe M (whole K) process _ (outside deeds.snapshot >>= _) w
    refine safe_bind ((safe_outside_whole hM (hturn.snapshot _ hstands)).mono fun taken w₁ hkept ↦ ?_)
    cases taken with
    | error why =>
      exact fun t hrely hinv ↦
        ⟨_, rfl, hturn.relies _ _ hrely hinv hkept.1, fun _ hnone ↦ nomatch hnone⟩
    | ok taken =>
      cases taken <;> exact fun t hrely hinv ↦ ⟨_, rfl, hturn.relies _ _ hrely hinv hkept.1,
        fun _ _ ↦ hturn.stays _ _ _ hrely hinv (hkept.2 _ rfl)⟩

/-- A run of a plan that is undone where a step fails. -/
theorem InTurn.safe_run (hM : M.perform = performance.perform) (hrecovery : plan.recovery = .rollBack)
    (hturn : InTurn performance K process deeds plan.steps.length holds stands)
    (hstands : stands 0 w.outside) :
    Safe M (whole K) process (fun _ w' ↦ holds w'.outside) (operated deeds (run id plan)).run w := by
  have hback {β : Type} {x : Run β} {w : Performed σ} (huses : x.run.Uses TakingBack)
      (h : holds w.outside) :
      Safe M (whole K) process (fun _ w' ↦ holds w'.outside) (operated deeds x).run w :=
    hturn.safe_takingBack hM huses h
  have hstarted : Safe M (whole K) process (fun _ w' ↦ stands 0 w'.outside)
      (.perform (.journal (.start id plan)) .done) w :=
    safe_stated_whole hM hturn.registers (hturn.stays 0) hstands
  change Safe M (whole K) process _ (.perform (.journal (.start id plan)) .done >>= fun _ ↦
    (operated deeds (record plan id >>= _)).run) w
  refine safe_bind (hstarted.mono fun _ w₁ hw₁ ↦ ?_)
  rw [operated_bind]
  refine safe_attempt_bind ((hturn.safe_record hM hw₁).mono ?_)
  rintro result w₂ ⟨recorded, rfl, hheld, hrecorded⟩
  cases recorded with
  | error why => exact hback (uses_bind close_takingBack fun _ ↦ trivial) hheld
  | ok reference =>
    dsimp only
    rw [operated_bind]
    refine safe_attempt_bind ((hturn.safe_applySteps hM (fun _ _ ↦ failedRun_takingBack hrecovery)
      (Nat.zero_add _) (hrecorded _ rfl) hheld).mono fun result w₃ hw₃ ↦ ?_)
    cases result with
    | error why => exact fun t hrely hinv ↦ hturn.relies _ _ hrely hinv hw₃
    | ok value =>
      obtain ⟨outputs, applied⟩ := value
      dsimp only
      rw [operated_bind, operated_outcome]
      refine safe_outcome_bind ((hturn.safe_commit hM hw₃).mono fun result w₄ hw₄ ↦ ?_)
      cases result with
      | ok output => exact fun t hrely hinv ↦ hturn.relies _ _ hrely hinv hw₄
      | error source => exact hback (uses_bind undoApplied_takingBack fun _ ↦ trivial) hw₄

/-- A rollback, wherever the run was left. -/
theorem Undoable.safe_rollBack (hM : M.perform = performance.perform)
    (hdeeds : Undoable performance K process deeds holds) (hholds : holds w.outside) :
    Safe M (whole K) process (fun _ w' ↦ holds w'.outside) (operated deeds (rollBack id plan)).run w :=
  hdeeds.safe_takingBack hM rollBack_takingBack hholds

end Programs

end Nodal.Lifecycle
