import Nodal.Lifecycle.Performed

/-!
# Operations beside other processes

A contract about what the steps act on is one about the processes of an operation: a statement of the
journal owes nothing and, but for the registry write, touches nothing the steps act on. Where each
step keeps the contract, whatever else goes on, so does every function of the runner over those steps
(`safe_operated`).
-/

set_option autoImplicit false

namespace Nodal.Lifecycle

open Nodal.Foundation

variable {G σ ι J α β : Type} {A C : G → Type}

/-- The operations of the steps, without a journal, for any number of processes. -/
def Performance.beside (performance : Performance G σ A C) : Machine Process Unit σ G A C Unit where
  program _ _ := .done ()
  enter _ _ s := some s
  leave _ s := s
  perform _ := performance.act

/-- A contract about what the steps act on, as one of the processes of an operation. -/
def whole (K : Contract Process σ G C) :
    Contract Process (Performed σ) (Act G) (Act.Choice C) where
  inv w := K.inv w.outside
  rely process w w' := K.rely process w.outside w'.outside
  rely_refl process w := K.rely_refl process w.outside
  rely_trans process _ _ _ := K.rely_trans process
  assume
    | process, .outside operation, choice, w => K.assume process operation choice w.outside
    | _, .journal _, _, _ => True
  pre
    | process, .outside operation, w => K.pre process operation w.outside
    | _, .journal _, _ => True

section

variable {performance : Performance G σ A C} {K : Contract Process σ G C} {deeds : Deeds G A}
  {M : Machine Process J (Performed σ) (Act G) (Act.Answer A) (Act.Choice C) α}
  {process : Process} {w : Performed σ}

/-- A statement of the journal leaves what the steps act on as it was, or is the registry write. -/
theorem outside_stated (performance : Performance G σ A C) (process : Process) (w : Performed σ)
    (effect : Effect) (choice : effect.Choice) :
    (performance.perform process (.journal effect) choice w).2.outside = w.outside ∨
      ∃ id outputs output s, performance.register id outputs w.outside = .ok (output, s) ∧
        (performance.perform process (.journal effect) choice w).2.outside = s := by
  cases effect with
  | commit id kind outputs =>
    rcases committing_cases performance process id kind outputs choice w with
      ⟨why, heq⟩ | ⟨output, after, hregister, -, heq⟩
    · refine .inl ?_
      change (committing performance process id kind outputs choice w).2.outside = _
      rw [heq]
    · refine .inr ⟨id, outputs, output, after, hregister, ?_⟩
      change (committing performance process id kind outputs choice w).2.outside = _
      rw [heq]
  | _ => exact .inl rfl

/-- The program of a step, in a process of the operation. -/
theorem safe_outside_whole (hM : M.perform = performance.perform) {Q : β → σ → Prop}
    {p : Program G A β} (h : Safe performance.beside K process Q p w.outside) :
    Safe M (whole K) process (fun value w ↦ Q value w.outside) (outside p) w := by
  induction p generalizing w with
  | done value => exact fun w' hrely hinv ↦ h w'.outside hrely hinv
  | perform operation next ih =>
    intro w' hrely hinv
    obtain ⟨hpre, hnext⟩ := h w'.outside hrely hinv
    refine ⟨hpre, fun choice hchoice ↦ ?_⟩
    have hperformed : M.perform process (.outside operation) choice w' =
        ((performance.act operation choice w'.outside).1,
          { w' with outside := (performance.act operation choice w'.outside).2 }) := by
      rw [hM]
      rfl
    rw [hperformed]
    exact ih _ (hnext choice hchoice)

/-- The steps of an operation keep a contract from wherever they are called. -/
structure Deeds.Keeps (deeds : Deeds G A) (performance : Performance G σ A C)
    (K : Contract Process σ G C) (process : Process) : Prop where
  snapshot : ∀ s, Safe performance.beside K process (fun _ _ ↦ True) deeds.snapshot s
  apply : ∀ position s, Safe performance.beside K process (fun _ _ ↦ True) (deeds.apply position) s
  undo : ∀ position s, Safe performance.beside K process (fun _ _ ↦ True) (deeds.undo position) s

theorem safe_handled (hM : M.perform = performance.perform)
    (hdeeds : deeds.Keeps performance K process) (effect : Effect) :
    Safe M (whole K) process (fun _ _ ↦ True) (handled deeds effect) w := by
  have hstatement : ∀ effect : Effect, Safe M (whole K) process (fun _ _ ↦ True)
      (.perform (.journal effect) .done) w :=
    fun _ _ _ _ ↦ ⟨trivial, fun _ _ _ _ _ ↦ trivial⟩
  cases effect with
  | snapshot id records kind => exact safe_outside_whole hM (hdeeds.snapshot _)
  | beginApply id position | beginUndo id position => exact fun _ _ _ ↦ trivial
  | endApply id position => exact safe_outside_whole hM (hdeeds.apply position _)
  | endUndo id position => exact safe_outside_whole hM (hdeeds.undo position _)
  | _ => exact hstatement _

/-- Where the steps keep a contract, every function of the runner over them does. -/
theorem safe_operated (hM : M.perform = performance.perform)
    (hdeeds : deeds.Keeps performance K process) (x : Run β) :
    Safe M (whole K) process (fun _ _ ↦ True) (operated deeds x).run w :=
  safe_interpret fun effect _ ↦ safe_handled hM hdeeds effect

end

end Nodal.Lifecycle
