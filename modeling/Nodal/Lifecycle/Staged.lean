import Nodal.Lifecycle.Beside
import Nodal.Lifecycle.Links

/-!
# What the steps of an operation keep

An operation whose steps keep an invariant keeps it, whichever step fails, whatever is undone, and
wherever its process is killed. A step may count on more than the invariant when it is applied: on
what the steps before it led to (`stands`). An undo may not, since it is performed wherever an earlier
process died.
-/

set_option autoImplicit false

namespace Nodal.Lifecycle

open Nodal.Foundation Nodal.Foundation.Attempt Nodal.Lifecycle.TakenBack

variable {G σ : Type} {A C : G → Type}

/-- The steps of a plan of `n` steps keep `I`, and `stands k` is what the first `k` led to. -/
structure Staged (performance : Performance G σ A C)
    (assume : (operation : G) → C operation → σ → Prop) (deeds : Deeds G A) (n : ℕ) (I : σ → Prop)
    (stands : ℕ → σ → Prop) : Prop where
  snapshot : ∀ s, stands 0 s →
    SafeDeed performance assume I (fun result s ↦ ∀ taken, result = .ok taken → stands 0 s)
      deeds.snapshot s
  applies : ∀ k < n, ∀ s, stands k s → SafeDeed performance assume I
    (fun result s ↦ ∀ output, result = .ok output → stands (k + 1) s) (deeds.apply k) s
  undoes : ∀ k s, SafeDeed performance assume I (fun _ _ ↦ True) (deeds.undo k) s
  registers : ∀ id outputs s output s', I s →
    performance.register id outputs s = .ok (output, s') → I s'

/-- An effect of taking a run back: no step is applied, and nothing is written to the registry. -/
def TakingBack : Effect → Prop
  | .snapshot _ _ _ | .endApply _ _ | .commit _ _ _ => False
  | _ => True

section Uses

variable {id : OperationId} {plan : Plan}

theorem undoEach_takingBack {acted : List StepRecord} {rest : List (Step × ℕ)}
    {undone : List String} : (undoEach id acted rest undone).run.Uses TakingBack := by
  induction rest generalizing undone with
  | nil => trivial
  | cons entry rest ih =>
    unfold undoEach
    split
    · refine uses_bind (uses_bind (uses_call trivial) fun _ ↦ uses_call trivial) fun answer ↦ ?_
      split
      · trivial
      · exact uses_bind (uses_call trivial) fun _ ↦ ih
    · exact ih

theorem undoSteps_takingBack : (undoSteps id plan).run.Uses TakingBack :=
  uses_bind (uses_bind (uses_call trivial) fun _ ↦ trivial) fun _ ↦ undoEach_takingBack

theorem close_takingBack {kind : String} {state : State} :
    (close id kind state).run.Uses TakingBack := by
  refine uses_bind (uses_call trivial) fun changed ↦ ?_
  split <;> trivial

theorem undoApplied_takingBack : (undoApplied id plan).run.Uses TakingBack := by
  refine uses_bind undoSteps_takingBack fun undone ↦ ?_
  split
  · exact close_takingBack
  · exact uses_bind close_takingBack fun _ ↦ trivial

theorem rollBack_takingBack : (rollBack id plan).run.Uses TakingBack := by
  refine uses_bind undoSteps_takingBack fun undone ↦ ?_
  split
  · exact uses_bind close_takingBack fun _ ↦ trivial
  · exact uses_bind close_takingBack fun _ ↦ trivial

theorem failedRun_takingBack {step : ℕ × String} {why : Error} (hrecovery : plan.recovery = .rollBack) :
    (failedRun id plan step why).run.Uses TakingBack := by
  rw [failedRun, if_neg (by simp [hrecovery])]
  exact undoApplied_takingBack

end Uses

/-- What a process of an operation owes: the invariant of what the steps act on, whatever else it
writes down. -/
abbrev harmless {J α : Type}
    (M : Machine Process J (Performed σ) (Act G) (Act.Answer A) (Act.Choice C) α)
    (assume : (operation : G) → C operation → σ → Prop) (I : σ → Prop) :
    Contract Process (Performed σ) (Act G) (Act.Choice C) :=
  keeping M (assumed assume) fun w ↦ I w.outside

section Programs

variable {performance : Performance G σ A C} {assume : (operation : G) → C operation → σ → Prop}
  {deeds : Deeds G A} {J α β : Type}
  {M : Machine Process J (Performed σ) (Act G) (Act.Answer A) (Act.Choice C) α}
  {process : Process} {w : Performed σ} {I : σ → Prop} {stands : ℕ → σ → Prop} {n : ℕ}
  {id : OperationId} {plan : Plan}

/-- A program of a step that is safe beside others is safe on its own. -/
theorem safeDeed_of_beside {Q : β → σ → Prop} {p : Program G A β} {s : σ}
    (h : Safe performance.beside (keeping performance.beside assume I) process Q p s) :
    SafeDeed performance assume I Q p s := by
  induction p generalizing s with
  | done value => exact h
  | perform operation next ih =>
    intro t hst ht
    obtain ⟨hpre, hnext⟩ := h t hst ht
    exact ⟨hpre, fun choice hchoice ↦ ih _ (hnext choice hchoice)⟩

/-- A program over what the steps act on, in a process of the operation. -/
theorem safe_outside_harmless (hM : M.perform = performance.perform) {Q : β → σ → Prop}
    {p : Program G A β} (h : SafeDeed performance assume I Q p w.outside) :
    Safe M (harmless M assume I) process (fun value w' ↦ Q value w'.outside) (outside p) w :=
  safe_keeping_of_inv fun hI ↦
    (safe_outside hM h hI fun _ hs ↦ hs).mono fun _ _ hended ↦ hended.2.2

/-- A statement of the journal other than a registry write. -/
theorem safe_stated_harmless (hM : M.perform = performance.perform) {effect : Effect} {P : σ → Prop}
    (hstated : ∀ choice, (performance.perform process (.journal effect) choice w).2.outside =
      w.outside) (h : P w.outside) :
    Safe M (harmless M assume I) process (fun _ w' ↦ P w'.outside)
      (.perform (.journal effect) .done) w := by
  refine safe_keeping_perform fun hI choice _ ↦ ?_
  rw [hM, hstated]
  refine ⟨hI, safe_keeping_done fun _ ↦ ?_⟩
  rw [hstated]
  exact h

/-- What takes a run back keeps the invariant from wherever it begins. -/
theorem safe_takingBack (hM : M.perform = performance.perform)
    (hstaged : Staged performance assume deeds n I stands) {x : Run β}
    (huses : x.run.Uses TakingBack) :
    Safe M (harmless M assume I) process (fun _ _ ↦ True) (operated deeds x).run w := by
  refine safe_interpret_of_uses huses fun effect w heffect ↦ ?_
  have hstated (h : ∀ choice, (performance.perform process (.journal effect) choice w).2.outside =
      w.outside) : Safe M (harmless M assume I) process (fun _ _ ↦ True)
      (.perform (.journal effect) .done) w :=
    safe_stated_harmless (P := fun _ ↦ True) hM h trivial
  cases effect with
  | snapshot _ _ _ | endApply _ _ | commit _ _ _ => exact heffect.elim
  | beginApply _ _ | beginUndo _ _ => exact fun _ _ _ ↦ trivial
  | endUndo other position => exact safe_outside_harmless hM (hstaged.undoes position _)
  | _ => exact hstated fun _ ↦ rfl

/-- The loop that applies the steps, from step `k` on. -/
theorem safe_applySteps_staged (hM : M.perform = performance.perform)
    (hstaged : Staged performance assume deeds n I stands) {kind : String}
    {failing : ℕ × String → Error → Run Unit}
    (hfailing : ∀ step why, (failing step why).run.Uses TakingBack) {steps : List Step} {k : ℕ}
    (hk : k + steps.length = n) {outputs : Outputs} {applied : List String}
    (hstands : stands k w.outside) :
    Safe M (harmless M assume I) process (fun _ _ ↦ True)
      (operated deeds (applySteps id kind [] failing (steps.zipIdx k) outputs applied)).run w := by
  induction steps generalizing k outputs applied w with
  | nil => exact safe_keeping_done fun _ ↦ trivial
  | cons step steps ih =>
    have hlt : k < n := by
      rw [← hk, List.length_cons]
      omega
    rw [List.zipIdx_cons]
    unfold applySteps
    rw [if_neg List.not_mem_nil, operated_bind]
    refine safe_attempt_bind (safe_bind ((safe_stated_harmless (P := stands k) hM (fun _ ↦ rfl)
      hstands).mono fun _ w₁ hattempted ↦ safe_keeping_done fun _ ↦ ?_))
    dsimp only
    rw [operated_bind]
    refine safe_attempt_bind ?_
    rw [operated_apply]
    refine safe_bind ((safe_outside_harmless hM (hstaged.applies k hlt _ hattempted)).mono
      fun answer w₂ hanswer ↦ safe_keeping_done fun _ ↦ ?_)
    dsimp only
    cases answer with
    | error source =>
      rw [operated_bind]
      refine safe_attempt_bind ((safe_takingBack hM hstaged (hfailing _ _)).mono fun result w₃ _ ↦ ?_)
      cases result <;> exact safe_keeping_done fun _ ↦ trivial
    | ok output =>
      dsimp only
      rw [operated_bind]
      refine safe_attempt_bind (safe_bind ((safe_stated_harmless (P := stands (k + 1)) hM
        (fun _ ↦ rfl) (hanswer output rfl)).mono fun _ w₃ happlied ↦ safe_keeping_done fun _ ↦ ?_))
      refine ih ?_ happlied
      rw [← hk, List.length_cons]
      omega

/-- The registry write keeps the invariant, made or not. -/
theorem safe_commit_staged (hM : M.perform = performance.perform)
    (hstaged : Staged performance assume deeds n I stands) {outputs : Outputs} :
    Safe M (harmless M assume I) process (fun _ _ ↦ True)
      (operated deeds (commit id plan outputs)).run w := by
  refine safe_keeping_perform fun hI choice _ ↦ ?_
  have hperform : M.perform process (.journal (.commit id plan.kind outputs)) choice w =
      committing performance process id plan.kind outputs choice w := by
    rw [hM]
    rfl
  rw [hperform]
  rcases committing_cases performance process id plan.kind outputs choice w with
    ⟨why, heq⟩ | ⟨output, after, hregister, -, heq⟩
  · rw [heq]
    exact ⟨hI, safe_keeping_done fun _ ↦ trivial⟩
  · rw [heq]
    exact ⟨hstaged.registers id outputs _ output after hI hregister,
      safe_keeping_done fun _ ↦ trivial⟩

/-- The home is recorded, or there is none to record, or that failed. -/
theorem safe_record_staged (hM : M.perform = performance.perform)
    (hstaged : Staged performance assume deeds n I stands) (hstands : stands 0 w.outside) :
    Safe M (harmless M assume I) process
      (fun result w' ↦ ∃ recorded, result = .ok recorded ∧
        ∀ reference, recorded = .ok reference → stands 0 w'.outside)
      (operated deeds (record plan id)).run w := by
  unfold record
  split
  · exact safe_keeping_done fun _ ↦ ⟨_, rfl, fun _ _ ↦ hstands⟩
  · change Safe M (harmless M assume I) process _ (outside deeds.snapshot >>= _) w
    refine safe_bind ((safe_outside_harmless hM (hstaged.snapshot _ hstands)).mono
      fun taken w' hkept ↦ ?_)
    cases taken with
    | error why => exact safe_keeping_done fun _ ↦ ⟨_, rfl, fun _ hnone ↦ nomatch hnone⟩
    | ok taken =>
      cases taken <;> exact safe_keeping_done fun _ ↦ ⟨_, rfl, fun _ _ ↦ hkept _ rfl⟩

/-- A run of a plan that is undone where a step fails keeps the invariant. -/
theorem safe_run_staged (hM : M.perform = performance.perform) (hrecovery : plan.recovery = .rollBack)
    (hstaged : Staged performance assume deeds plan.steps.length I stands)
    (hstands : stands 0 w.outside) :
    Safe M (harmless M assume I) process (fun _ _ ↦ True) (operated deeds (run id plan)).run w := by
  change Safe M (harmless M assume I) process _
    (.perform (.journal (.start id plan)) .done >>= fun _ ↦
      (operated deeds (record plan id >>= _)).run) w
  refine safe_bind ((safe_stated_harmless (P := stands 0) hM (fun _ ↦ rfl) hstands).mono
    fun _ w₁ hstarted ↦ ?_)
  rw [operated_bind]
  refine safe_attempt_bind ((safe_record_staged hM hstaged hstarted).mono ?_)
  rintro result w₂ ⟨recorded, rfl, hrecorded⟩
  cases recorded with
  | error why =>
    refine safe_takingBack hM hstaged ?_
    exact uses_bind close_takingBack fun _ ↦ trivial
  | ok reference =>
    dsimp only
    rw [operated_bind]
    refine safe_attempt_bind ((safe_applySteps_staged hM hstaged
      (fun _ _ ↦ failedRun_takingBack hrecovery) (Nat.zero_add _) (hrecorded _ rfl)).mono
      fun result w₃ _ ↦ ?_)
    cases result with
    | error why => exact safe_keeping_done fun _ ↦ trivial
    | ok value =>
      obtain ⟨outputs, applied⟩ := value
      dsimp only
      rw [operated_bind, operated_outcome]
      refine safe_outcome_bind ((safe_commit_staged hM hstaged).mono fun result w₄ _ ↦ ?_)
      cases result with
      | ok output => exact safe_keeping_done fun _ ↦ trivial
      | error source =>
        refine safe_takingBack hM hstaged ?_
        exact uses_bind undoApplied_takingBack fun _ ↦ trivial

/-- A rollback keeps the invariant, wherever the run was left. -/
theorem safe_rollBack_staged (hM : M.perform = performance.perform)
    (hstaged : Staged performance assume deeds n I stands) :
    Safe M (harmless M assume I) process (fun _ _ ↦ True) (operated deeds (rollBack id plan)).run w :=
  safe_takingBack hM hstaged rollBack_takingBack

end Programs

/-! ### Links that keep one invariant -/

/-- Each link leads to what stands before the next, and keeps `I` on the way and when it is undone. -/
def Chained (performance : Performance G σ A C)
    (assume : (operation : G) → C operation → σ → Prop) (I last : σ → Prop) :
    List (Link G σ A) → Prop
  | [] => True
  | link :: links =>
    (∀ s, link.before s → SafeDeed performance assume I
      (fun result s ↦ ∀ output, result = .ok output → standing last links s) link.apply s) ∧
    (∀ s, SafeDeed performance assume I (fun _ _ ↦ True) link.undo s) ∧
      Chained performance assume I last links

section Chains

variable {performance : Performance G σ A C} {assume : (operation : G) → C operation → σ → Prop}
  {I last : σ → Prop} {links : List (Link G σ A)} {link : Link G σ A} {k : ℕ}

theorem Chained.get (h : Chained performance assume I last links) (hk : links[k]? = some link) :
    (∀ s, link.before s → SafeDeed performance assume I
      (fun result s ↦ ∀ output, result = .ok output → standing last (links.drop (k + 1)) s)
        link.apply s) ∧
    ∀ s, SafeDeed performance assume I (fun _ _ ↦ True) link.undo s := by
  induction links generalizing k with
  | nil => simp at hk
  | cons first links ih =>
    cases k with
    | zero =>
      obtain rfl : first = link := by simpa using hk
      exact ⟨h.1, h.2.1⟩
    | succ k => exact ih h.2.2 (by simpa using hk)

/-- The steps of a plan made of such links. A step the plan does not have is neither applied nor
undone. -/
theorem Chained.staged {deeds : Deeds G A} (h : Chained performance assume I last links)
    (hdeeds : ∀ k link, links[k]? = some link →
      deeds.apply k = link.apply ∧ deeds.undo k = link.undo)
    (hnone : ∀ k, links[k]? = none → ∃ why, deeds.undo k = .done (.error why))
    (hsnapshot : ∀ s, standing last links s →
      SafeDeed performance assume I (fun result s ↦ ∀ taken, result = .ok taken →
        standing last links s) deeds.snapshot s)
    (hregisters : ∀ id outputs s output s', I s →
      performance.register id outputs s = .ok (output, s') → I s') :
    Staged performance assume deeds links.length I fun k ↦ standing last (links.drop k) where
  snapshot := hsnapshot
  applies k hk s hs := by
    have hsome : links[k]? = some links[k] := List.getElem?_eq_getElem hk
    rw [standing_drop hsome] at hs
    rw [(hdeeds k _ hsome).1]
    exact (h.get hsome).1 s hs
  undoes k s := by
    cases hsome : links[k]? with
    | none =>
      obtain ⟨why, hundo⟩ := hnone k hsome
      rw [hundo]
      exact safe_keeping_done fun _ ↦ trivial
    | some link =>
      rw [(hdeeds k link hsome).2]
      exact (h.get hsome).2 s
  registers := hregisters

end Chains

end Nodal.Lifecycle
