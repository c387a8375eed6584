import Nodal.Foundation.Machine

/-!
# Contracts for interleaved programs

A `Contract` states what a process may count on and what it owes while it runs beside others. It
may count on an invariant of the world, on its `rely` (what the other processes can have done
between two of its effects) and on `assume` (what the outside chooses). It owes a precondition for
each effect it performs.

`Safe` says that a program keeps the contract from a world on, and ends in its postcondition. It is
a weakest precondition: the rules below follow the constructors of programs and the `do` blocks of
attempts. `Sound` says that the contract fits the machine: what a process owes is enough for the
invariant, for the rely of every other live process and for the safety of whoever enters.
`guarded_exec` is the result: along every run whose steps meet the condition of `Sound`, the
invariant holds and every live program stays safe.
-/

set_option autoImplicit false

namespace Nodal.Foundation

/-- What each process may count on and what it owes. -/
structure Contract (ι σ E : Type) (C : E → Type) where
  /-- What holds of the world between any two steps. -/
  inv : σ → Prop
  /-- What the others can have done between two effects of a process. -/
  rely : ι → σ → σ → Prop
  rely_refl : ∀ i s, rely i s s
  rely_trans : ∀ i {s t u}, rely i s t → rely i t u → rely i s u
  /-- What the outside may choose for an effect. -/
  assume : ι → (effect : E) → C effect → σ → Prop
  /-- What has to hold when a process performs an effect. -/
  pre : ι → E → σ → Prop

section Safety

variable {ι J σ E α β ε : Type} {R C : E → Type}
  (M : Machine ι J σ E R C α) (K : Contract ι σ E C) (i : ι)

/-- A program keeps the contract from a world on and ends in `Q`. -/
def Safe (Q : β → σ → Prop) : Program E R β → σ → Prop
  | .done value, s => ∀ t, K.rely i s t → K.inv t → Q value t
  | .perform effect next, s => ∀ t, K.rely i s t → K.inv t → K.pre i effect t ∧
      ∀ choice, K.assume i effect choice t →
        Safe Q (next (M.perform i effect choice t).1) (M.perform i effect choice t).2

variable {M K i} {Q Q' : β → σ → Prop} {p : Program E R β} {s t : σ}

/-- Safety outlasts what the others do. -/
theorem Safe.rely (h : Safe M K i Q p s) (hst : K.rely i s t) : Safe M K i Q p t := by
  cases p with
  | done value => exact fun u htu ↦ h u (K.rely_trans i hst htu)
  | perform effect next => exact fun u htu ↦ h u (K.rely_trans i hst htu)

/-- Safety may be shown after what the others do. -/
theorem safe_of_rely (h : ∀ t, K.rely i s t → K.inv t → Safe M K i Q p t) : Safe M K i Q p s := by
  cases p with
  | done value => exact fun t hst ht ↦ h t hst ht t (K.rely_refl i t) ht
  | perform effect next => exact fun t hst ht ↦ h t hst ht t (K.rely_refl i t) ht

theorem Safe.mono (himp : ∀ value s, Q value s → Q' value s) (h : Safe M K i Q p s) :
    Safe M K i Q' p s := by
  induction p generalizing s with
  | done value => exact fun t hst ht ↦ himp value t (h t hst ht)
  | perform effect next ih =>
    intro t hst ht
    obtain ⟨hpre, hnext⟩ := h t hst ht
    exact ⟨hpre, fun choice hchoice ↦ ih _ (hnext choice hchoice)⟩

/-- The first program ends where the second is safe. -/
theorem safe_bind {γ : Type} {p : Program E R γ} {f : γ → Program E R β}
    (h : Safe M K i (fun value ↦ Safe M K i Q (f value)) p s) : Safe M K i Q (p >>= f) s := by
  induction p generalizing s with
  | done value => exact safe_of_rely h
  | perform effect next ih =>
    intro t hst ht
    obtain ⟨hpre, hnext⟩ := h t hst ht
    exact ⟨hpre, fun choice hchoice ↦ ih _ (hnext choice hchoice)⟩

/-- A program whose result is only passed on. -/
theorem safe_map {γ : Type} {p : Program E R γ} {f : γ → β}
    (h : Safe M K i (fun value ↦ Q (f value)) p s) :
    Safe M K i Q (p >>= fun value ↦ .done (f value)) s := by
  induction p generalizing s with
  | done value => exact h
  | perform effect next ih =>
    intro t hst ht
    obtain ⟨hpre, hnext⟩ := h t hst ht
    exact ⟨hpre, fun choice hchoice ↦ ih _ (hnext choice hchoice)⟩

/-- The first attempt ends with a value from which the second is safe, or with an error. -/
theorem safe_attempt_bind {γ : Type} {x : Attempt E R ε γ} {f : γ → Attempt E R ε β}
    {Q : Except ε β → σ → Prop}
    (h : Safe M K i (fun result s ↦
      match result with
      | .ok value => Safe M K i Q (f value).run s
      | .error error => Safe M K i Q (.done (.error error)) s) x.run s) :
    Safe M K i Q (x >>= f).run s := by
  rw [Attempt.run_bind]
  refine safe_bind (h.mono fun result s hresult ↦ ?_)
  cases result with
  | ok value => exact hresult
  | error error => exact hresult

/-- An attempt whose outcome is looked at. -/
theorem safe_outcome_bind {γ : Type} {x : Attempt E R ε γ} {f : Except ε γ → Attempt E R ε β}
    {Q : Except ε β → σ → Prop}
    (h : Safe M K i (fun result ↦ Safe M K i Q (f result).run) x.run s) :
    Safe M K i Q (x.outcome >>= f).run s := by
  refine safe_attempt_bind (safe_bind (h.mono fun result s hresult ↦ ?_))
  exact fun t hst _ ↦ hresult.rely hst

/-- What the others and the effects of a program keep is still there at its end. -/
theorem Safe.frame {allowed : E → Prop} {F : σ → Prop} (huses : p.Uses allowed)
    (hrely : ∀ s t, K.rely i s t → F s → F t)
    (hperform : ∀ effect choice t, allowed effect → F t → F (M.perform i effect choice t).2)
    (h : Safe M K i Q p s) (hs : F s) : Safe M K i (fun value t ↦ Q value t ∧ F t) p s := by
  induction p generalizing s with
  | done value => exact fun t hst ht ↦ ⟨h t hst ht, hrely s t hst hs⟩
  | perform effect next ih =>
    intro t hst ht
    obtain ⟨hpre, hnext⟩ := h t hst ht
    refine ⟨hpre, fun choice hchoice ↦ ih _ (huses.2 _) (hnext choice hchoice) ?_⟩
    exact hperform effect choice t huses.1 (hrely s t hst hs)

/-- A program all of whose effects are allowed keeps a frame that they and the others keep. -/
theorem safe_of_uses {allowed : E → Prop} {F : σ → Prop} (huses : p.Uses allowed) (hs : F s)
    (hrely : ∀ s t, K.rely i s t → K.inv t → F s → F t)
    (hpre : ∀ effect t, allowed effect → K.inv t → F t → K.pre i effect t)
    (hperform : ∀ effect choice t, allowed effect → K.inv t → K.assume i effect choice t → F t →
      F (M.perform i effect choice t).2)
    (hQ : ∀ value t, K.inv t → F t → Q value t) : Safe M K i Q p s := by
  induction p generalizing s with
  | done value => exact fun t hst ht ↦ hQ value t ht (hrely s t hst ht hs)
  | perform effect next ih =>
    intro t hst ht
    have hframe := hrely s t hst ht hs
    refine ⟨hpre effect t huses.1 ht hframe, fun choice hchoice ↦ ?_⟩
    exact ih _ (huses.2 _) (hperform effect choice t huses.1 ht hchoice hframe)

end Safety

/-! ### Soundness -/

section Soundness

variable {ι J σ E α : Type} {R C : E → Type} [DecidableEq ι]
  (M : Machine ι J σ E R C α) (K : Contract ι σ E C) (Q : ι → α → σ → Prop)
  (P : Config ι σ E R α → Label ι J E C → Prop)

/-- A process may count on its rely between two worlds, or it has ended with nothing left to owe. -/
def Reliable (j : ι) (p : Program E R α) (s t : σ) : Prop :=
  K.rely j s t ∨ ∃ value, p = .done value ∧ ∀ u, Q j value u

/-- The contract fits the machine on the steps that satisfy `P`. -/
structure Sound : Prop where
  assume : ∀ {c i choice effect rest}, P c (.act i choice) →
    c.running i = some (.perform effect rest) → K.assume i effect (choice effect) c.world
  act : ∀ {c i choice effect rest}, P c (.act i choice) →
    c.running i = some (.perform effect rest) → K.inv c.world → K.pre i effect c.world →
    K.inv (M.perform i effect (choice effect) c.world).2 ∧ ∀ j p, j ≠ i → c.running j = some p →
      Reliable K Q j p c.world (M.perform i effect (choice effect) c.world).2
  enter : ∀ {c i job world}, P c (.enter i job) → c.running i = none →
    M.enter i job c.world = some world → K.inv c.world →
    K.inv world ∧ Safe M K i (Q i) (M.program i job) world ∧
      ∀ j p, j ≠ i → c.running j = some p → Reliable K Q j p c.world world
  leave : ∀ {c i p}, P c (.leave i) → c.running i = some p → K.inv c.world →
    K.inv (M.leave i c.world) ∧ ∀ j q, j ≠ i → c.running j = some q →
      Reliable K Q j q c.world (M.leave i c.world)

/-- The invariant holds and every live program is safe. -/
def Guarded (c : Config ι σ E R α) : Prop :=
  K.inv c.world ∧ ∀ i p, c.running i = some p → Safe M K i (Q i) p c.world

variable {M K Q P} {c c' : Config ι σ E R α} {label : Label ι J E C}
  {labels : List (Label ι J E C)}

/-- Changing the program of one process keeps the others safe. -/
private theorem guarded_update {world : σ} {i : ι} {q : Option (Program E R α)}
    (hc : Guarded M K Q c) (hinv : K.inv world)
    (hrely : ∀ j p, j ≠ i → c.running j = some p → Reliable K Q j p c.world world)
    (hq : ∀ p, q = some p → Safe M K i (Q i) p world) :
    Guarded M K Q ⟨world, Function.update c.running i q⟩ := by
  refine ⟨hinv, fun j p hj ↦ ?_⟩
  by_cases hji : j = i
  · subst hji
    exact hq p (by simpa using hj)
  · have hrunning : c.running j = some p := by simpa [Function.update_of_ne hji] using hj
    rcases hrely j p hji hrunning with hrely | ⟨value, rfl, hdone⟩
    · exact (hc.2 j p hrunning).rely hrely
    · exact fun u _ _ ↦ hdone u

/-- A step that satisfies `P` keeps the configuration guarded. -/
theorem Sound.guarded_next (hsound : Sound M K Q P) (hP : P c label)
    (hnext : M.next c label = some c') (hc : Guarded M K Q c) : Guarded M K Q c' := by
  cases label with
  | enter i job =>
    obtain ⟨hrunning, world, hworld, rfl⟩ := Machine.next_enter_eq_some.mp hnext
    obtain ⟨hinv, hsafe, hrely⟩ := hsound.enter hP hrunning hworld hc.1
    exact guarded_update hc hinv hrely fun p hp ↦ Option.some.inj hp ▸ hsafe
  | act i choice =>
    obtain ⟨effect, rest, hrunning, rfl⟩ := Machine.next_act_eq_some.mp hnext
    obtain ⟨hpre, hafter⟩ := hc.2 i _ hrunning c.world (K.rely_refl i _) hc.1
    obtain ⟨hinv, hrely⟩ := hsound.act hP hrunning hc.1 hpre
    exact guarded_update hc hinv hrely fun p hp ↦
      Option.some.inj hp ▸ hafter _ (hsound.assume hP hrunning)
  | leave i =>
    obtain ⟨p, hrunning, rfl⟩ := Machine.next_leave_eq_some.mp hnext
    obtain ⟨hinv, hrely⟩ := hsound.leave hP hrunning hc.1
    exact guarded_update hc hinv hrely fun p hp ↦ by cases hp

/-- Along a run whose steps satisfy `P`, the configuration stays guarded. -/
theorem Sound.guarded_exec (hsound : Sound M K Q P) (halong : M.Along P c labels)
    (hexec : M.exec c labels = some c') (hc : Guarded M K Q c) : Guarded M K Q c' :=
  Machine.exec_induction (fun _ _ _ hP hnext ↦ hsound.guarded_next hP hnext) halong hexec hc

end Soundness

end Nodal.Foundation
