import Nodal.Foundation.Crash
import Nodal.Lifecycle.Performed

/-!
# Operations that can be taken back

What a plan owes so that it can be taken back: for each step, what stands before it, and what may
stand while it is applied or undone. Applying a step leads from what stands before it to what stands
before the next. Undoing it leads, from anything that may stand on the way, to what may stand on the
way of the step before it, and at the first step to what is restored.

Then a run of the plan that does not commit ends, when it is closed as rolled back, with what is
restored, whichever step failed and however often a process was killed in between
(`safe_run`, `safe_rollBack`).
-/

set_option autoImplicit false

namespace Nodal.Lifecycle.TakenBack

open Nodal.Foundation Nodal.Foundation.Attempt

variable {G σ : Type} {A C : G → Type}

/-- The program of a step keeps `I` between any two operations and ends in `Q`. -/
abbrev SafeDeed {β : Type} (performance : Performance G σ A C)
    (assume : (operation : G) → C operation → σ → Prop) (I : σ → Prop) (Q : β → σ → Prop)
    (p : Program G A β) (s : σ) : Prop :=
  Safe performance.bare (keeping performance.bare assume I) () Q p s

/-- What stands where the first `m` steps may have to be undone. -/
def Reached (restored : σ → Prop) (during : ℕ → σ → Prop) : ℕ → σ → Prop
  | 0 => restored
  | m + 1 => during m

/-- The steps of a plan of `n` steps can be taken back: `stands k` is what stands before step `k`,
`during k` what may stand while it is applied or undone, and `restored` what is left when all are
undone. -/
structure TakesBack (performance : Performance G σ A C)
    (assume : (operation : G) → C operation → σ → Prop) (deeds : Deeds G A) (n : ℕ)
    (stands during : ℕ → σ → Prop) (restored finished : σ → Prop) : Prop where
  starts : ∀ s, stands 0 s → restored s
  snapshot : ∀ s, stands 0 s →
    SafeDeed performance assume (stands 0) (fun _ _ ↦ True) deeds.snapshot s
  begins : ∀ k < n, ∀ s, stands k s → during k s
  leaves : ∀ k < n, ∀ s, stands (k + 1) s → during k s
  applies : ∀ k < n, ∀ s, stands k s → SafeDeed performance assume (during k)
    (fun result s ↦ ∀ output, result = .ok output → stands (k + 1) s) (deeds.apply k) s
  undoes : ∀ k < n, ∀ s, during k s → SafeDeed performance assume (during k)
    (fun result s ↦ result = .ok () → Reached restored during k s) (deeds.undo k) s
  registers : ∀ id outputs s output s', stands n s →
    performance.register id outputs s = .ok (output, s') → finished s'

/-! ### What stands while a run is open -/

/-- The steps that may have to be undone are the first `m`. -/
def Acted (v : View) (m : ℕ) : Prop :=
  ∀ position, (∃ row, v.steps.get? position = some row ∧ row.state.mayHaveActed = true) ↔
    position < m

/-- A run is open, its first `m` steps may have to be undone, and `P` stands outside. -/
structure Open (id : OperationId) (m : ℕ) (P : σ → Prop) (w : Performed σ) : Prop where
  state : (w.journal.view id).state = some .running
  placed : ∀ position row, (w.journal.view id).steps.get? position = some row →
    row.position = position
  acted : Acted (w.journal.view id) m
  outside : P w.outside

/-- What holds of a run and of the outside between any two effects. -/
structure Restorable (id : OperationId) (n : ℕ) (during : ℕ → σ → Prop)
    (restored finished : σ → Prop) (w : Performed σ) : Prop where
  placed : ∀ position row, (w.journal.view id).steps.get? position = some row →
    row.position = position
  uncommitted : (w.journal.view id).state ≠ some .committed →
    ∃ m ≤ n, Acted (w.journal.view id) m ∧ Reached restored during m w.outside
  rolledBack : (w.journal.view id).state = some .rolledBack → restored w.outside
  committed : (w.journal.view id).state = some .committed → finished w.outside

section Open

variable {id : OperationId} {n m k : ℕ} {during : ℕ → σ → Prop}
  {restored finished P P' : σ → Prop}
  {w : Performed σ} {process : Process} {v : View} {step : StepRecord}

theorem Open.mono (h : Open id m P w) (himp : ∀ s, P s → P' s) : Open id m P' w :=
  ⟨h.state, h.placed, h.acted, himp _ h.outside⟩

/-- A run that is open can be taken back. -/
theorem Open.restorable (h : Open id m P w) (hm : m ≤ n)
    (hreached : ∀ s, P s → Reached restored during m s) :
    Restorable id n during restored finished w where
  placed := h.placed
  uncommitted _ := ⟨m, hm, h.acted, hreached _ h.outside⟩
  rolledBack hstate := by
    rw [h.state] at hstate
    cases hstate
  committed hstate := by
    rw [h.state] at hstate
    cases hstate

theorem acted_markStep (hacted : Acted v m) {m' : ℕ}
    (hpositions : ∀ position, position < m' ↔
      if position = step.position then step.state.mayHaveActed = true else position < m) :
    Acted (v.markStep step) m' := by
  intro position
  rw [View.get?_markStep, hpositions]
  by_cases hposition : position = step.position
  · subst hposition
    simp [Journal.merged]
  · simp only [hposition, if_false]
    exact hacted position

/-- The row of a step is written. -/
theorem Open.markStep {m' : ℕ} (h : Open id m P w)
    (hpositions : ∀ position, position < m' ↔
      if position = step.position then step.state.mayHaveActed = true else position < m)
    (choice : (Effect.markStep id step).Choice) :
    Open id m' P { w with journal := (perform process (.markStep id step) choice w.journal).2 } where
  state := by
    change ((perform process (.markStep id step) choice w.journal).2.view id).state = _
    rw [view_markStep]
    exact h.state
  placed position row hrow := by
    change ((perform process (.markStep id step) choice w.journal).2.view id).steps.get? position
      = some row at hrow
    rw [view_markStep, View.note_steps, View.get?_markStep] at hrow
    split at hrow
    · next hposition =>
      rw [← Option.some.inj hrow]
      exact hposition.symm
    · exact h.placed position row hrow
  acted := by
    change Acted ((perform process (.markStep id step) choice w.journal).2.view id) m'
    rw [view_markStep]
    exact acted_markStep h.acted hpositions
  outside := h.outside

end Open

/-! ### The programs -/

/-- What the outside may choose for an act. -/
def assumed (assume : (operation : G) → C operation → σ → Prop) :
    (act : Act G) → act.Choice C → Performed σ → Prop
  | .journal _, _, _ => True
  | .outside operation, choice, w => assume operation choice w.outside

section Programs

variable {performance : Performance G σ A C} {assume : (operation : G) → C operation → σ → Prop}
  {deeds : Deeds G A} {J α β : Type}
  {M : Machine Process J (Performed σ) (Act G) (Act.Answer A) (Act.Choice C) α}
  {process : Process} {w : Performed σ} {Inv : Performed σ → Prop}

/-- The program of a step, in a process of the operation. -/
theorem safe_outside (hM : M.perform = performance.perform) {I : σ → Prop} {Q : β → σ → Prop}
    {p : Program G A β} (h : SafeDeed performance assume I Q p w.outside) (hI : I w.outside)
    (hinv : ∀ s, I s → Inv { w with outside := s }) :
    Safe M (keeping M (assumed assume) Inv) process
      (fun value w' ↦ w'.journal = w.journal ∧ I w'.outside ∧ Q value w'.outside)
      (outside p) w := by
  obtain ⟨journal, s⟩ := w
  induction p generalizing s with
  | done value =>
    exact safe_keeping_done fun _ ↦ ⟨rfl, hI, h s rfl hI⟩
  | perform operation next ih =>
    obtain ⟨hpre, hnext⟩ := h s rfl hI
    refine safe_keeping_perform fun _ choice hchoice ↦ ?_
    have hperformed : M.perform process (.outside operation) choice ⟨journal, s⟩ =
        ((performance.act operation choice s).1, ⟨journal, (performance.act operation choice s).2⟩) := by
      rw [hM]
      rfl
    rw [hperformed]
    have hkept : I (performance.act operation choice s).2 := hpre choice hchoice
    exact ⟨hinv _ hkept, ih _ _ (hnext choice hchoice) hkept hinv⟩

/-- A statement of the journal other than a registry write. -/
theorem safe_stated (hM : M.perform = performance.perform) {effect : Effect}
    {next : effect.Answer → Program (Act G) (Act.Answer A) β} {Q : β → Performed σ → Prop}
    (hstated : ∀ choice, performance.perform process (.journal effect) choice w =
      ((perform process effect choice w.journal).1,
        { w with journal := (perform process effect choice w.journal).2 }))
    (h : ∀ choice, Inv { w with journal := (perform process effect choice w.journal).2 } ∧
      Safe M (keeping M (assumed assume) Inv) process Q
        (next (perform process effect choice w.journal).1)
        { w with journal := (perform process effect choice w.journal).2 }) :
    Safe M (keeping M (assumed assume) Inv) process Q (.perform (.journal effect) next) w := by
  refine safe_keeping_perform fun _ choice _ ↦ ?_
  rw [hM, hstated]
  exact h choice

variable {id : OperationId} {plan : Plan} {stands during : ℕ → σ → Prop}
  {restored finished : σ → Prop}
  {P : σ → Prop} {k m n : ℕ}

/-- What a process of the operation still does leaves the run restorable and ends in `Q`. -/
abbrev SafeRun {β : Type} (M : Machine Process J (Performed σ) (Act G) (Act.Answer A) (Act.Choice C) α)
    (assume : (operation : G) → C operation → σ → Prop) (id : OperationId) (n : ℕ)
    (during : ℕ → σ → Prop) (restored finished : σ → Prop) (process : Process)
    (Q : β → Performed σ → Prop) (p : Program (Act G) (Act.Answer A) β) (w : Performed σ) : Prop :=
  Safe M (keeping M (assumed assume) (Restorable id n during restored finished)) process Q p w

/-- The row of a step is written, and the run is open as before. -/
theorem safe_mark (hM : M.perform = performance.perform) {step : ℕ × String} {state : StepState}
    {output : Option Output} {m' : ℕ} (hopen : Open id m P w) (hm' : m' ≤ n)
    (hreached : ∀ s, P s → Reached restored during m' s)
    (hpositions : ∀ position, position < m' ↔
      if position = step.1 then state.mayHaveActed = true else position < m) :
    SafeRun M assume id n during restored finished process
      (fun result w' ↦ result = .ok () ∧ Open id m' P w')
      (operated deeds (mark id step state output)).run w := by
  refine safe_stated hM (fun _ ↦ rfl) fun choice ↦ ?_
  have hmarked : Open id m' P { w with
      journal := (perform process (.markStep id _) choice w.journal).2 } :=
    hopen.markStep hpositions choice
  exact ⟨hmarked.restorable hm' hreached, safe_keeping_done fun _ ↦ ⟨rfl, hmarked⟩⟩

/-- A step is applied. -/
theorem safe_apply (hM : M.perform = performance.perform)
    (htakes : TakesBack performance assume deeds n stands during restored finished) (hk : k < n)
    (hopen : Open id (k + 1) (stands k) w) :
    SafeRun M assume id n during restored finished process
      (fun result w' ↦ ∃ answer, result = .ok answer ∧ Open id (k + 1) (during k) w' ∧
        ∀ output, answer = .ok output → Open id (k + 1) (stands (k + 1)) w')
      (operated deeds (apply id k)).run w := by
  rw [operated_apply]
  have hkept (s : σ) (hs : during k s) : Open id (k + 1) (during k) { w with outside := s } :=
    ⟨hopen.state, hopen.placed, hopen.acted, hs⟩
  refine safe_bind ((safe_outside hM (htakes.applies k hk _ hopen.outside)
    (htakes.begins k hk _ hopen.outside)
    fun s hs ↦ (hkept s hs).restorable hk fun _ h ↦ h).mono fun answer w' ⟨hjournal, hduring, hok⟩ ↦
      safe_keeping_done fun _ ↦ ⟨answer, rfl, ?_, fun output houtput ↦ ?_⟩)
  · exact ⟨hjournal ▸ hopen.state, hjournal ▸ hopen.placed, hjournal ▸ hopen.acted, hduring⟩
  · exact ⟨hjournal ▸ hopen.state, hjournal ▸ hopen.placed, hjournal ▸ hopen.acted,
      hok output houtput⟩

/-- A step is undone. -/
theorem safe_undo (hM : M.perform = performance.perform)
    (htakes : TakesBack performance assume deeds n stands during restored finished) (hk : k < n)
    (hopen : Open id (k + 1) (during k) w) :
    SafeRun M assume id n during restored finished process
      (fun result w' ↦ ∃ answer, result = .ok answer ∧ Open id (k + 1) (during k) w' ∧
        (answer = .ok () → Open id (k + 1) (Reached restored during k) w'))
      (operated deeds (undo id k)).run w := by
  rw [operated_undo]
  have hkept (s : σ) (hs : during k s) : Open id (k + 1) (during k) { w with outside := s } :=
    ⟨hopen.state, hopen.placed, hopen.acted, hs⟩
  refine safe_bind ((safe_outside hM (htakes.undoes k hk _ hopen.outside) hopen.outside
    fun s hs ↦ (hkept s hs).restorable hk fun _ h ↦ h).mono fun answer w' ⟨hjournal, hduring, hok⟩ ↦
      safe_keeping_done fun _ ↦ ⟨answer, rfl, ?_, fun hanswer ↦ ?_⟩)
  · exact ⟨hjournal ▸ hopen.state, hjournal ▸ hopen.placed, hjournal ▸ hopen.acted, hduring⟩
  · exact ⟨hjournal ▸ hopen.state, hjournal ▸ hopen.placed, hjournal ▸ hopen.acted, hok hanswer⟩

/-! ### Going back -/

/-- What stands before a step may stand while the step before it is undone. -/
theorem TakesBack.reached (htakes : TakesBack performance assume deeds n stands during restored finished)
    (hk : k ≤ n) {s : σ} (h : stands k s) : Reached restored during k s := by
  cases k with
  | zero => exact htakes.starts s h
  | succ k => exact htakes.leaves k hk s h

/-- What a pass over the steps ends with: it took the run back, or an undo stopped it. -/
def Passed (id : OperationId) (n : ℕ) (during : ℕ → σ → Prop) (restored : σ → Prop)
    (result : Except Error Undone)
    (w : Performed σ) : Prop :=
  (∃ keys, result = .ok (.all keys) ∧ Open id 0 restored w) ∨
    ∃ key why m, result = .ok (.stopped key why) ∧ m ≤ n ∧ Open id m (Reached restored during m) w

/-- The loop of a pass. `m` steps were found to have acted, and those from `k` on are undone. -/
theorem safe_undoEach (hM : M.perform = performance.perform)
    (htakes : TakesBack performance assume deeds n stands during restored finished)
    {steps : List Step} (hsteps : steps.length ≤ n) {acted : List StepRecord} {undone : List String}
    (hacted : ∀ position, (acted.any fun record ↦ record.position = position) = true ↔ position < m)
    (hopen : Open id (min steps.length m) (Reached restored during (min steps.length m)) w) :
    SafeRun M assume id n during restored finished process (Passed id n during restored)
      (operated deeds (undoEach id acted steps.zipIdx.reverse undone)).run w := by
  induction steps using List.reverseRecOn generalizing undone w with
  | nil =>
    have hback : Open id 0 (Reached restored during 0) w := by
      rwa [List.length_nil, Nat.zero_min] at hopen
    exact safe_keeping_done fun _ ↦ .inl ⟨undone, rfl, hback⟩
  | append_singleton steps step ih =>
    have hlength : steps.length < n := by
      rwa [List.length_append, List.length_singleton] at hsteps
    rw [List.zipIdx_append, List.reverse_append]
    simp only [List.zipIdx_singleton, List.reverse_singleton, List.singleton_append, Nat.zero_add]
    unfold undoEach
    by_cases hposition : steps.length < m
    · rw [if_pos ((hacted _).mpr hposition), operated_bind]
      have hmin : min (steps ++ [step]).length m = steps.length + 1 := by
        simp only [List.length_append, List.length_singleton]
        omega
      rw [hmin] at hopen
      refine safe_attempt_bind ((safe_undo hM htakes hlength hopen).mono ?_)
      rintro result w' ⟨answer, rfl, hduring, hok⟩
      cases answer with
      | error why =>
        exact safe_keeping_done fun _ ↦
          .inr ⟨step.key, why, steps.length + 1, rfl, hlength, hduring⟩
      | ok value =>
        dsimp only
        rw [operated_bind]
        have hbefore : Open id (steps.length + 1) (Reached restored during steps.length) w' :=
          hok rfl
        refine safe_attempt_bind ((safe_mark hM hbefore hlength.le (fun _ h ↦ h)
          fun position ↦ ?_).mono ?_)
        · dsimp only
          split
          · next heq => simp [heq, StepState.mayHaveActed]
          · next hne => omega
        · rintro result w'' ⟨rfl, hmarked⟩
          have hmin' : min steps.length m = steps.length := by omega
          exact ih hlength.le (hmin'.symm ▸ hmarked)
    · have hskip : ¬(acted.any fun record ↦ record.position = steps.length) = true := fun h ↦
        hposition ((hacted _).mp h)
      rw [if_neg hskip]
      have hmin : min (steps ++ [step]).length m = min steps.length m := by
        simp only [List.length_append, List.length_singleton]
        omega
      exact ih hlength.le (hmin ▸ hopen)

/-- A pass over the steps of a run that is open. -/
theorem safe_undoSteps (hM : M.perform = performance.perform)
    (htakes : TakesBack performance assume deeds plan.steps.length stands during restored finished)
    (hm : m ≤ plan.steps.length) (hopen : Open id m (Reached restored during m) w) :
    SafeRun M assume id plan.steps.length during restored finished process
      (Passed id plan.steps.length during restored) (operated deeds (undoSteps id plan)).run w := by
  refine safe_stated hM (fun _ ↦ rfl) fun choice ↦ ⟨hopen.restorable hm fun _ h ↦ h, ?_⟩
  refine safe_undoEach hM htakes le_rfl (fun position ↦ ?_) (Nat.min_eq_right hm ▸ hopen)
  rw [← hopen.acted position, List.any_eq_true]
  constructor
  · rintro ⟨row, hrow, hposition⟩
    obtain ⟨hvalue, hacted⟩ := List.mem_filter.mp hrow
    obtain ⟨other, hother⟩ := Table.mem_values_iff.mp hvalue
    obtain rfl : other = position :=
      (hopen.placed other row hother).symm.trans (of_decide_eq_true hposition)
    exact ⟨row, hother, hacted⟩
  · rintro ⟨row, hrow, hacted⟩
    exact ⟨row, List.mem_filter.mpr ⟨Table.mem_values_iff.mpr ⟨position, hrow⟩, hacted⟩,
      decide_eq_true (hopen.placed position row hrow)⟩

/-- A run that is open is closed. -/
theorem safe_close (hM : M.perform = performance.perform) {kind : String} {state : State}
    (hstate : state ≠ .committed) (hm : m ≤ n) (hopen : Open id m P w)
    (hreached : ∀ s, P s → Reached restored during m s)
    (hback : state = .rolledBack → ∀ s, P s → restored s) :
    SafeRun M assume id n during restored finished process (fun _ _ ↦ True)
      (operated deeds (close id kind state)).run w := by
  refine safe_stated hM (fun _ ↦ rfl) fun choice ↦ ?_
  obtain ⟨hchanged, hview⟩ := perform_finish_open process state choice hopen.state
  have hmoved : ((perform process (.finish id state) choice w.journal).2.view id).state =
      some state := by
    rw [hview, View.note_state, View.move_state, hopen.state]
    rfl
  have hsteps : ((perform process (.finish id state) choice w.journal).2.view id).steps =
      (w.journal.view id).steps := by
    rw [hview, View.note_steps, View.move_steps]
  refine ⟨⟨?_, fun _ ↦ ⟨m, hm, ?_, hreached _ hopen.outside⟩, fun hrolled ↦ ?_,
    fun hcommitted ↦ ?_⟩, ?_⟩
  · intro position row hrow
    exact hopen.placed position row (hsteps ▸ hrow)
  · intro position
    change (∃ row, ((perform process (.finish id state) choice w.journal).2.view id).steps.get?
      position = some row ∧ _) ↔ _
    rw [hsteps]
    exact hopen.acted position
  · exact hback (Option.some.inj (hmoved.symm.trans hrolled)) _ hopen.outside
  · exact absurd (Option.some.inj (hmoved.symm.trans hcommitted)) hstate
  · rw [hchanged]
    exact safe_keeping_done fun _ ↦ trivial

/-- A failing run is taken back, or an undo stops it. -/
theorem safe_undoApplied (hM : M.perform = performance.perform)
    (htakes : TakesBack performance assume deeds plan.steps.length stands during restored finished)
    (hm : m ≤ plan.steps.length) (hopen : Open id m (Reached restored during m) w) :
    SafeRun M assume id plan.steps.length during restored finished process (fun _ _ ↦ True)
      (operated deeds (undoApplied id plan)).run w := by
  rw [undoApplied, operated_bind]
  refine safe_attempt_bind ((safe_undoSteps hM htakes hm hopen).mono ?_)
  rintro result w' (⟨keys, rfl, hback⟩ | ⟨key, why, m', rfl, hm', hstopped⟩)
  · exact safe_close hM (by simp) (Nat.zero_le _) hback (fun _ h ↦ h) fun _ _ h ↦ h
  · dsimp only
    rw [operated_bind]
    refine safe_attempt_bind ((safe_close hM (by simp) hm' hstopped (fun _ h ↦ h)
      (by simp)).mono fun result w'' _ ↦ ?_)
    cases result <;> exact safe_keeping_done fun _ ↦ trivial

/-- A run whose process is gone is taken back, or an undo stops it. -/
theorem safe_rollBack (hM : M.perform = performance.perform)
    (htakes : TakesBack performance assume deeds plan.steps.length stands during restored finished)
    (hm : m ≤ plan.steps.length) (hopen : Open id m (Reached restored during m) w) :
    SafeRun M assume id plan.steps.length during restored finished process (fun _ _ ↦ True)
      (operated deeds (rollBack id plan)).run w := by
  rw [rollBack, operated_bind]
  refine safe_attempt_bind ((safe_undoSteps hM htakes hm hopen).mono ?_)
  rintro result w' (⟨keys, rfl, hback⟩ | ⟨key, why, m', rfl, hm', hstopped⟩)
  · dsimp only
    rw [operated_bind]
    refine safe_attempt_bind ((safe_close hM (by simp) (Nat.zero_le _) hback (fun _ h ↦ h)
      fun _ _ h ↦ h).mono fun result w'' _ ↦ ?_)
    cases result <;> exact safe_keeping_done fun _ ↦ trivial
  · dsimp only
    rw [operated_bind]
    refine safe_attempt_bind ((safe_close hM (by simp) hm' hstopped (fun _ h ↦ h)
      (by simp)).mono fun result w'' _ ↦ ?_)
    cases result <;> exact safe_keeping_done fun _ ↦ trivial

/-! ### Going on -/

/-- The loop that applies the steps, from step `k` on. A step that fails takes the run back. -/
theorem safe_applySteps (hM : M.perform = performance.perform) (hrecovery : plan.recovery = .rollBack)
    (htakes : TakesBack performance assume deeds plan.steps.length stands during restored finished)
    {kind : String} {steps : List Step} (hk : k + steps.length = plan.steps.length)
    {outputs : Outputs} {applied : List String} (hopen : Open id k (stands k) w) :
    SafeRun M assume id plan.steps.length during restored finished process
      (fun result w' ↦ ∀ value, result = .ok value →
        Open id plan.steps.length (stands plan.steps.length) w')
      (operated deeds (applySteps id kind [] (failedRun id plan) (steps.zipIdx k) outputs
        applied)).run w := by
  induction steps generalizing k outputs applied w with
  | nil =>
    obtain rfl : k = plan.steps.length := by simpa using hk
    exact safe_keeping_done fun _ _ _ ↦ hopen
  | cons step steps ih =>
    have hlt : k < plan.steps.length := by
      rw [← hk, List.length_cons]
      omega
    rw [List.zipIdx_cons]
    unfold applySteps
    rw [if_neg List.not_mem_nil, operated_bind]
    -- The step is written down as being attempted, and counts as one that may have acted.
    refine safe_attempt_bind ((safe_mark hM hopen hlt (htakes.begins k hlt) fun position ↦ ?_).mono ?_)
    · dsimp only
      split
      · next heq => simp [heq, StepState.mayHaveActed]
      · next hne => omega
    rintro result w₁ ⟨rfl, hattempted⟩
    dsimp only
    rw [operated_bind]
    refine safe_attempt_bind ((safe_apply hM htakes hlt hattempted).mono ?_)
    rintro result w₂ ⟨answer, rfl, hfailed, hok⟩
    cases answer with
    | error source =>
      dsimp only
      rw [operated_bind]
      rw [failedRun, if_neg (by simp [hrecovery])]
      refine safe_attempt_bind ((safe_undoApplied hM htakes hlt hfailed).mono fun result w₃ _ ↦ ?_)
      cases result <;> exact safe_keeping_done fun _ _ hvalue ↦ by cases hvalue
    | ok output =>
      dsimp only
      rw [operated_bind]
      have hstands := hok output rfl
      refine safe_attempt_bind ((safe_mark hM hstands hlt (htakes.leaves k hlt) fun position ↦ ?_).mono
        ?_)
      · dsimp only
        split
        · next heq => simp [heq, StepState.mayHaveActed]
        · next hne => rfl
      rintro result w₃ ⟨rfl, happlied⟩
      refine ih ?_ happlied
      rw [← hk, List.length_cons]
      omega

/-- The registry write: the run is committed, or it is open as before. -/
theorem safe_commit (hM : M.perform = performance.perform)
    (htakes : TakesBack performance assume deeds n stands during restored finished) {outputs : Outputs}
    (hopen : Open id n (stands n) w) :
    SafeRun M assume id n during restored finished process
      (fun result w' ↦ ∀ why, result = .error why → Open id n (stands n) w')
      (operated deeds (commit id plan outputs)).run w := by
  refine safe_keeping_perform fun hrestorable choice _ ↦ ?_
  have hperform : M.perform process (.journal (.commit id plan.kind outputs)) choice w =
      committing performance process id plan.kind outputs choice w := by
    rw [hM]
    rfl
  rw [hperform]
  rcases committing_cases performance process id plan.kind outputs choice w with
    ⟨why, heq⟩ | ⟨output, after, hregister, _, heq⟩
  · rw [heq]
    exact ⟨hrestorable, safe_keeping_done fun _ _ _ ↦ hopen⟩
  · rw [heq]
    have hview := (perform_commit_open process plan.kind outputs output hopen.state).2
    have hmoved : ((perform process (.commit id plan.kind outputs) (.ok output)
        w.journal).2.view id).state = some .committed := by
      rw [hview, View.note_state, View.move_state, hopen.state]
      rfl
    refine ⟨⟨fun position row hrow ↦ ?_, fun hnot ↦ absurd hmoved hnot, fun hback ↦ ?_, fun _ ↦ ?_⟩,
      safe_keeping_done fun _ why hwhy ↦ by cases hwhy⟩
    · change ((perform process (.commit id plan.kind outputs) (.ok output)
        w.journal).2.view id).steps.get? position = some row at hrow
      rw [hview] at hrow
      exact hopen.placed position row hrow
    · cases hmoved.symm.trans hback
    · exact htakes.registers id outputs _ output after hopen.outside hregister

/-- The home is recorded, or there is none to record, or that failed. -/
theorem safe_record (hM : M.perform = performance.perform)
    (htakes : TakesBack performance assume deeds n stands during restored finished)
    (hopen : Open id 0 (stands 0) w) :
    SafeRun M assume id n during restored finished process
      (fun result w' ↦ ∃ recorded, result = .ok recorded ∧ Open id 0 (stands 0) w')
      (operated deeds (record plan id)).run w := by
  unfold record
  split
  · exact safe_keeping_done fun _ ↦ ⟨_, rfl, hopen⟩
  · next records _ =>
    have hkept (s : σ) (hs : stands 0 s) : Open id 0 (stands 0) { w with outside := s } :=
      ⟨hopen.state, hopen.placed, hopen.acted, hs⟩
    change SafeRun M assume id n during restored finished process _ (outside deeds.snapshot >>= _) w
    refine safe_bind ((safe_outside hM (htakes.snapshot _ hopen.outside) hopen.outside
      fun s hs ↦ (hkept s hs).restorable (Nat.zero_le _) htakes.starts).mono
        fun taken w' ⟨hjournal, hstands, _⟩ ↦ ?_)
    have hopen' : Open id 0 (stands 0) w' :=
      ⟨hjournal ▸ hopen.state, hjournal ▸ hopen.placed, hjournal ▸ hopen.acted, hstands⟩
    rcases taken with why | (_ | _) <;> exact safe_keeping_done fun _ ↦ ⟨_, rfl, hopen'⟩

/-- A run of the plan, from where nothing of it is in the journal. -/
theorem safe_run (hM : M.perform = performance.perform) (hrecovery : plan.recovery = .rollBack)
    (htakes : TakesBack performance assume deeds plan.steps.length stands during restored finished)
    (hnew : ∀ position, (w.journal.view id).steps.get? position = none) (houtside : stands 0 w.outside) :
    SafeRun M assume id plan.steps.length during restored finished process (fun _ _ ↦ True)
      (operated deeds (run id plan)).run w := by
  refine safe_stated hM (fun _ ↦ rfl) fun choice ↦ ?_
  have hview : (perform process (.start id plan) choice w.journal).2.view id =
      View.note { w.journal.view id with row := some (Journal.opened id plan process.owner) } process
        .started := view_start plan choice
  have hopen : Open id 0 (stands 0)
      { w with journal := (perform process (.start id plan) choice w.journal).2 } := by
    refine ⟨?_, fun position row hrow ↦ ?_, fun position ↦ ?_, houtside⟩
    · rw [hview]
      rfl
    · rw [hview, View.note_steps] at hrow
      rw [hnew] at hrow
      cases hrow
    · rw [hview, View.note_steps]
      simp [hnew]
  refine ⟨hopen.restorable (Nat.zero_le _) htakes.starts, ?_⟩
  change SafeRun M assume id plan.steps.length during restored finished process _
    (operated deeds (record plan id >>= _)).run _
  rw [operated_bind]
  refine safe_attempt_bind ((safe_record hM htakes hopen).mono ?_)
  rintro result w₁ ⟨recorded, rfl, hrecorded⟩
  cases recorded with
  | error why =>
    dsimp only
    rw [operated_bind]
    refine safe_attempt_bind ((safe_close hM (by simp) (Nat.zero_le _) hrecorded htakes.starts
      (by simp)).mono fun result w₂ _ ↦ ?_)
    cases result <;> exact safe_keeping_done fun _ ↦ trivial
  | ok reference =>
    dsimp only
    rw [operated_bind]
    refine safe_attempt_bind ((safe_applySteps hM hrecovery htakes (Nat.zero_add _) hrecorded).mono
      fun result w₂ happlied ↦ ?_)
    cases result with
    | error why => exact safe_keeping_done fun _ ↦ trivial
    | ok value =>
      obtain ⟨outputs, applied⟩ := value
      dsimp only
      rw [operated_bind, operated_outcome]
      refine safe_outcome_bind ((safe_commit hM htakes (happlied _ rfl)).mono
        fun result w₃ hcommitted ↦ ?_)
      cases result with
      | ok output => exact safe_keeping_done fun _ ↦ trivial
      | error source =>
        dsimp only
        rw [operated_bind]
        have hback : Open id plan.steps.length (Reached restored during plan.steps.length) w₃ :=
          (hcommitted source rfl).mono fun s hs ↦ htakes.reached le_rfl hs
        refine safe_attempt_bind ((safe_undoApplied hM htakes le_rfl hback).mono
          fun result w₄ _ ↦ ?_)
        cases result <;> exact safe_keeping_done fun _ ↦ trivial

end Programs

end Nodal.Lifecycle.TakenBack
