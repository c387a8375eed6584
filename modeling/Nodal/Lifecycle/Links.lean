import Nodal.Lifecycle.TakenBack

/-!
# Plans whose steps hang together

A step on its own: what stands before it, what may stand while it is applied or undone, and its two
programs. A list of such links is `Linked` when applying each leads to what stands before the next,
and undoing it to what may stand on the way of the one before it. A linked list is a plan that can be
taken back (`Linked.takesBack`), whichever stages the list was put together from.
-/

set_option autoImplicit false

namespace Nodal.Lifecycle.TakenBack

open Nodal.Foundation

variable {G σ : Type} {A C : G → Type}

/-- A step, what stands before it, and what may stand on the way. -/
structure Link (G σ : Type) (A : G → Type) where
  before : σ → Prop
  during : σ → Prop
  apply : Program G A (Except String Output)
  undo : Program G A (Except String Unit)

/-- What stands before the first of some links, or after the last. -/
def standing (last : σ → Prop) : List (Link G σ A) → σ → Prop
  | [] => last
  | link :: _ => link.before

/-- What may stand on the way of a link, by position. -/
def duringAt (links : List (Link G σ A)) (k : ℕ) : σ → Prop :=
  (links[k]?).elim (fun _ ↦ True) Link.during

/-- Applying a link leads to `next`, and undoing it to `back`. -/
structure Link.Sound (performance : Performance G σ A C)
    (assume : (operation : G) → C operation → σ → Prop) (back next : σ → Prop)
    (link : Link G σ A) : Prop where
  begins : ∀ s, link.before s → link.during s
  leaves : ∀ s, next s → link.during s
  applies : ∀ s, link.before s → SafeDeed performance assume link.during
    (fun result s ↦ ∀ output, result = .ok output → next s) link.apply s
  undoes : ∀ s, link.during s → SafeDeed performance assume link.during
    (fun result s ↦ result = .ok () → back s) link.undo s

/-- Each link leads to the next, and back to the one before it. -/
def Linked (performance : Performance G σ A C) (assume : (operation : G) → C operation → σ → Prop)
    (last : σ → Prop) : (back : σ → Prop) → List (Link G σ A) → Prop
  | _, [] => True
  | back, link :: links => link.Sound performance assume back (standing last links) ∧
      Linked performance assume last link.during links

section

variable {performance : Performance G σ A C} {assume : (operation : G) → C operation → σ → Prop}
  {last back back' : σ → Prop} {links : List (Link G σ A)} {link : Link G σ A} {k : ℕ}

theorem Linked.get (h : Linked performance assume last back links) (hk : links[k]? = some link) :
    link.Sound performance assume (Reached back (duringAt links) k)
      (standing last (links.drop (k + 1))) := by
  induction links generalizing back k with
  | nil => simp at hk
  | cons first links ih =>
    cases k with
    | zero =>
      obtain rfl : first = link := by simpa using hk
      exact h.1
    | succ k =>
      have hrest := ih h.2 (by simpa using hk)
      cases k with
      | zero => exact hrest
      | succ k => exact hrest

theorem standing_drop (hk : links[k]? = some link) :
    standing last (links.drop k) = link.before := by
  rw [List.drop_eq_getElem_cons (List.getElem?_eq_some_iff.mp hk).1,
    (List.getElem?_eq_some_iff.mp hk).2]
  rfl

/-- A linked list is a plan that can be taken back. -/
theorem Linked.takesBack {deeds : Deeds G A} {restored finished : σ → Prop}
    (h : Linked performance assume last restored links)
    (hdeeds : ∀ k link, links[k]? = some link →
      deeds.apply k = link.apply ∧ deeds.undo k = link.undo)
    (hstarts : ∀ s, standing last links s → restored s)
    (hsnapshot : ∀ s, standing last links s → SafeDeed performance assume (standing last links)
      (fun _ _ ↦ True) deeds.snapshot s)
    (hregisters : ∀ id outputs s output s', last s →
      performance.register id outputs s = .ok (output, s') → finished s') :
    TakesBack performance assume deeds links.length (fun k ↦ standing last (links.drop k))
      (duringAt links) restored finished := by
  have hlink : ∀ k < links.length, ∃ link, links[k]? = some link ∧
      link.Sound performance assume (Reached restored (duringAt links) k)
        (standing last (links.drop (k + 1))) := by
    intro k hk
    have hsome : links[k]? = some links[k] := List.getElem?_eq_getElem hk
    exact ⟨_, hsome, h.get hsome⟩
  have hduring {k : ℕ} {link : Link G σ A} (hk : links[k]? = some link) :
      duringAt links k = link.during := by
    rw [duringAt, hk]
    rfl
  constructor
  · exact hstarts
  · exact hsnapshot
  · intro k hk s hs
    obtain ⟨link, hsome, hsound⟩ := hlink k hk
    rw [standing_drop hsome] at hs
    rw [hduring hsome]
    exact hsound.begins s hs
  · intro k hk s hs
    obtain ⟨link, hsome, hsound⟩ := hlink k hk
    rw [hduring hsome]
    exact hsound.leaves s hs
  · intro k hk s hs
    obtain ⟨link, hsome, hsound⟩ := hlink k hk
    rw [standing_drop hsome] at hs
    rw [hduring hsome, (hdeeds k link hsome).1]
    exact hsound.applies s hs
  · intro k hk s hs
    obtain ⟨link, hsome, hsound⟩ := hlink k hk
    rw [hduring hsome] at hs ⊢
    rw [(hdeeds k link hsome).2]
    exact hsound.undoes s hs
  · intro id outputs s output s' hs
    rw [List.drop_length] at hs
    exact hregisters id outputs s output s' hs

end

end Nodal.Lifecycle.TakenBack
