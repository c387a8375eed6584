import Nodal.Foundation.Machine

/-!
# A program that runs alone

`solo` runs one program to its end while nobody else acts, where what the outside chooses depends
only on the effect. `exec_solo` says that it is a run of the machine. `solo_bind` and
`solo_attempt_bind` follow the program's own sequencing, and two rules say what a run alone depends
on: a property that every effect of the program keeps holds at its end (`solo_keeps`), and two
worlds that every effect of the program treats alike are treated alike by the program (`solo_congr`).
-/

set_option autoImplicit false

namespace Nodal.Foundation

variable {ι J σ E α β γ ε : Type} {R C : E → Type}

namespace Machine

/-- What a program ends with, and the world it leaves, when nobody else acts. -/
def solo (M : Machine ι J σ E R C α) (i : ι) (choice : (effect : E) → C effect) :
    Program E R β → σ → β × σ
  | .done value, s => (value, s)
  | .perform effect next, s =>
    M.solo i choice (next (M.perform i effect (choice effect) s).1)
      (M.perform i effect (choice effect) s).2

variable {M : Machine ι J σ E R C α} {i : ι} {choice : (effect : E) → C effect}

@[simp] theorem solo_done (value : β) (s : σ) : M.solo i choice (.done value) s = (value, s) := rfl

@[simp] theorem solo_perform (effect : E) (next : R effect → Program E R β) (s : σ) :
    M.solo i choice (.perform effect next) s =
      M.solo i choice (next (M.perform i effect (choice effect) s).1)
        (M.perform i effect (choice effect) s).2 := rfl

theorem solo_bind (p : Program E R β) (f : β → Program E R γ) (s : σ) :
    M.solo i choice (p >>= f) s =
      M.solo i choice (f (M.solo i choice p s).1) (M.solo i choice p s).2 := by
  induction p generalizing s with
  | done value => rfl
  | perform effect next ih => exact ih _ _

/-- An attempt goes on where its first part ended with a value. -/
theorem solo_attempt_bind (x : Attempt E R ε β) (f : β → Attempt E R ε γ) (s : σ) :
    M.solo i choice (x >>= f).run s =
      match M.solo i choice x.run s with
      | (.ok value, t) => M.solo i choice (f value).run t
      | (.error error, t) => (.error error, t) := by
  rw [Attempt.run_bind, solo_bind]
  rcases M.solo i choice x.run s with ⟨_ | _, t⟩ <;> rfl

theorem solo_attempt_ok {x : Attempt E R ε β} {f : β → Attempt E R ε γ} {s t : σ} {value : β}
    (h : M.solo i choice x.run s = (.ok value, t)) :
    M.solo i choice (x >>= f).run s = M.solo i choice (f value).run t := by
  rw [solo_attempt_bind, h]

theorem solo_attempt_error {x : Attempt E R ε β} {f : β → Attempt E R ε γ} {s t : σ} {error : ε}
    (h : M.solo i choice x.run s = (.error error, t)) :
    M.solo i choice (x >>= f).run s = (.error error, t) := by
  rw [solo_attempt_bind, h]

theorem solo_call_bind {effect : E} {f : R effect → Attempt E R ε γ} {s t : σ} {answer : R effect}
    (h : M.perform i effect (choice effect) s = (answer, t)) :
    M.solo i choice (Attempt.call effect >>= f).run s = M.solo i choice (f answer).run t := by
  rw [Attempt.run_call_bind, solo_perform, h]

/-- What every effect of a program keeps, the program keeps. -/
theorem solo_keeps {allowed : E → Prop} (F : σ → Prop) {p : Program E R β}
    (huses : p.Uses allowed)
    (hperform : ∀ effect s, allowed effect → F s → F (M.perform i effect (choice effect) s).2)
    {s : σ} (hs : F s) : F (M.solo i choice p s).2 := by
  induction p generalizing s with
  | done value => exact hs
  | perform effect next ih => exact ih _ (huses.2 _) (hperform effect s huses.1 hs)

/-- Two worlds that every effect of a program treats alike are treated alike by the program. -/
theorem solo_congr {allowed : E → Prop} (alike : σ → σ → Prop) {p : Program E R β}
    (huses : p.Uses allowed)
    (hperform : ∀ effect s t, allowed effect → alike s t →
      (M.perform i effect (choice effect) s).1 = (M.perform i effect (choice effect) t).1 ∧
        alike (M.perform i effect (choice effect) s).2 (M.perform i effect (choice effect) t).2)
    {s t : σ} (hst : alike s t) :
    (M.solo i choice p s).1 = (M.solo i choice p t).1 ∧
      alike (M.solo i choice p s).2 (M.solo i choice p t).2 := by
  induction p generalizing s t with
  | done value => exact ⟨rfl, hst⟩
  | perform effect next ih =>
    obtain ⟨hanswer, halike⟩ := hperform effect s t huses.1 hst
    rw [solo_perform, solo_perform, hanswer]
    exact ih _ (huses.2 _) halike

/-- A run alone is a run of the machine, in which one process acts until its program has ended. -/
theorem exec_solo [DecidableEq ι] (p : Program E R α) (s : σ)
    (running : ι → Option (Program E R α)) (hrunning : running i = some p) :
    ∃ effects, M.exec ⟨s, running⟩ (List.replicate effects (.act i choice)) =
      some ⟨(M.solo i choice p s).2,
        Function.update running i (some (.done (M.solo i choice p s).1))⟩ := by
  induction p generalizing s running with
  | done value =>
    refine ⟨0, congrArg some ?_⟩
    rw [solo_done, ← hrunning, Function.update_eq_self]
  | perform effect next ih =>
    obtain ⟨effects, heffects⟩ := ih (M.perform i effect (choice effect) s).1
      (M.perform i effect (choice effect) s).2 (Function.update running i _)
      (Function.update_self ..)
    refine ⟨effects + 1, exec_cons_eq_some.mpr ⟨_, next_act_eq_some.mpr
      ⟨effect, next, hrunning, rfl⟩, ?_⟩⟩
    rw [Function.update_idem] at heffects
    exact heffects

end Machine

end Nodal.Foundation
