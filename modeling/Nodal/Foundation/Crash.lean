import Nodal.Foundation.Interpret
import Nodal.Foundation.Session

/-!
# Programs that may be killed between any two effects

`keeping` is the contract of a process nobody disturbs: an invariant holds whenever the process could
be killed, so what comes after it may count on the invariant and on nothing else. A contract for a
narrower invariant is one for a wider (`Safe.widen`), which is how the programs of a part are used in
the whole.

`sound_keeping` says that such contracts fit a machine whose processes are alone.
-/

set_option autoImplicit false

namespace Nodal.Foundation

section Keeping

variable {ι J σ E α β : Type} {R C : E → Type}

/-- The contract of a process that is alone and owes an invariant between any two effects. -/
def keeping (M : Machine ι J σ E R C α) (assume : (effect : E) → C effect → σ → Prop)
    (I : σ → Prop) : Contract ι σ E C where
  inv := I
  rely _ s t := s = t
  rely_refl _ _ := rfl
  rely_trans _ _ _ _ := Eq.trans
  assume _ := assume
  pre i effect s := ∀ choice, assume effect choice s → I (M.perform i effect choice s).2

variable {M : Machine ι J σ E R C α} {assume : (effect : E) → C effect → σ → Prop}
  {I I' : σ → Prop} {i : ι} {Q : β → σ → Prop} {p : Program E R β} {s : σ}

theorem safe_keeping_done {value : β} (h : I s → Q value s) :
    Safe M (keeping M assume I) i Q (.done value) s := by
  rintro t rfl hinv
  exact h hinv

theorem safe_keeping_perform {effect : E} {next : R effect → Program E R β}
    (h : I s → ∀ choice, assume effect choice s → I (M.perform i effect choice s).2 ∧
      Safe M (keeping M assume I) i Q (next (M.perform i effect choice s).1)
        (M.perform i effect choice s).2) :
    Safe M (keeping M assume I) i Q (.perform effect next) s := by
  rintro t rfl hinv
  exact ⟨fun choice hchoice ↦ (h hinv choice hchoice).1,
    fun choice hchoice ↦ (h hinv choice hchoice).2⟩

/-- The invariant may be used where a program begins. -/
theorem safe_keeping_of_inv (h : I s → Safe M (keeping M assume I) i Q p s) :
    Safe M (keeping M assume I) i Q p s := by
  refine safe_of_rely fun t hst ht ↦ ?_
  obtain rfl : s = t := hst
  exact h ht

/-- What keeps an invariant keeps a wider one. -/
theorem Safe.widen (h : Safe M (keeping M assume I) i Q p s) (hs : I s)
    (himp : ∀ s, I s → I' s) :
    Safe M (keeping M assume I') i (fun value s ↦ I s ∧ Q value s) p s := by
  induction p generalizing s with
  | done value =>
    rintro t rfl -
    exact ⟨hs, h s rfl hs⟩
  | perform effect next ih =>
    rintro t rfl -
    obtain ⟨hpre, hnext⟩ := h s rfl hs
    exact ⟨fun choice hchoice ↦ himp _ (hpre choice hchoice), fun choice hchoice ↦
      ih _ (hnext choice hchoice) (hpre choice hchoice)⟩

end Keeping

section Soundness

variable {ι J σ E α : Type} {R C : E → Type} {M : Machine ι J σ E R C α}
  {assume : (effect : E) → C effect → σ → Prop} {I : σ → Prop} {Q : ι → α → σ → Prop}
  {P : Config ι σ E R α → Label ι J E C → Prop}

/-- Contracts that keep an invariant fit a machine whose processes are alone.

Assumes: who enters is safe from there on, and leaving keeps the invariant. -/
theorem sound_keeping (halone : ∀ {c label}, P c label → Alone c label)
    (hassume : ∀ {c i choice effect rest}, P c (.act i choice) →
      c.running i = some (.perform effect rest) → assume effect (choice effect) c.world)
    (henter : ∀ {c i job world}, P c (.enter i job) → c.running i = none →
      M.enter i job c.world = some world → I c.world →
      I world ∧ Safe M (keeping M assume I) i (Q i) (M.program i job) world)
    (hleave : ∀ {c i p}, P c (.leave i) → c.running i = some p → I c.world →
      I (M.leave i c.world)) : Sound M (keeping M assume I) Q P where
  assume hP hrunning := hassume hP hrunning
  act {c i choice effect rest} hP hrunning _ hpre := by
    refine ⟨hpre _ (hassume hP hrunning), fun j p hj hrunningj ↦ ?_⟩
    rw [halone hP j hj] at hrunningj
    cases hrunningj
  enter {c i job world} hP hrunning hworld hinv := by
    obtain ⟨hkept, hsafe⟩ := henter hP hrunning hworld hinv
    refine ⟨hkept, hsafe, fun j p hj hrunningj ↦ ?_⟩
    rw [halone hP j hj] at hrunningj
    cases hrunningj
  leave {c i p} hP hrunning hinv := by
    refine ⟨hleave hP hrunning hinv, fun j q hj hrunningj ↦ ?_⟩
    rw [halone hP j hj] at hrunningj
    cases hrunningj

/-- A process that is safe stays safe while nobody but it acts. -/
theorem safe_acts [DecidableEq ι] {c c' : Config ι σ E R α} {i : ι} {Q : α → σ → Prop}
    {P : Config ι σ E R α → Label ι J E C → Prop} {choices : List ((effect : E) → C effect)}
    {p : Program E R α} (hassume : ∀ {c choice effect rest}, P c (.act i choice) →
      c.running i = some (.perform effect rest) → assume effect (choice effect) c.world)
    (halong : M.Along P c (choices.map (.act i))) (hexec : M.exec c (choices.map (.act i)) = some c')
    (hrunning : c.running i = some p) (hsafe : Safe M (keeping M assume I) i Q p c.world)
    (hinv : I c.world) :
    ∃ p', c'.running i = some p' ∧ Safe M (keeping M assume I) i Q p' c'.world ∧ I c'.world := by
  induction choices generalizing c p with
  | nil =>
    obtain rfl : c = c' := Option.some.inj hexec
    exact ⟨p, hrunning, hsafe, hinv⟩
  | cons choice choices ih =>
    obtain ⟨c₁, hnext, hrest⟩ := Machine.exec_cons_eq_some.mp hexec
    obtain ⟨effect, rest, hperform, rfl⟩ := Machine.next_act_eq_some.mp hnext
    obtain rfl : p = .perform effect rest := Option.some.inj (hrunning.symm.trans hperform)
    have hchoice := hassume halong.1 hperform
    obtain ⟨hpre, hafter⟩ := hsafe c.world rfl hinv
    exact ih (halong.2 _ hnext) hrest (Function.update_self ..) (hafter _ hchoice) (hpre _ hchoice)

end Soundness

end Nodal.Foundation
