import Nodal.Merge.Home

/-!
# What each script of a merge does

`Does` is what a script does where nobody else acts on the home: an invariant between any two of its
commands, and what holds where it answers a value. The outside may let any command fail, except that
a ref that is asked for is read, that the files of a rebase can be looked at, and that without a
squash no rebase is carried to its end (`answered`).
-/

set_option autoImplicit false

namespace Nodal.Merge

open Git Foundation Foundation.Attempt Lifecycle Lifecycle.TakenBack Plumbing

/-- What the outside may choose. -/
def answered (squash : Bool) : (command : Command) → command.Choice → World → Prop
  | .showRef _ _, .error (.exit _), _ => False
  | .statRebase, .error _, _ => False
  | .rebase _, .ok (.done _ _), _ => squash = true
  | _, _, _ => True

/-- A script keeps `I` between any two commands, and ends with an error or with a value in `X`. -/
abbrev Does {β : Type} (setting : Setting) (squash : Bool) (I : World → Prop) (X : β → World → Prop)
    (x : Script β) (w : World) : Prop :=
  SafeDeed (performance setting) (answered squash) I
    (fun result w ↦ ∀ value, result = .ok value → X value w) x.run w

/-- The same, whatever the outside is assumed to choose. -/
abbrev DoesUnder {β : Type} (setting : Setting)
    (assume : (command : Command) → command.Choice → World → Prop) (I : World → Prop)
    (X : β → World → Prop) (x : Script β) (w : World) : Prop :=
  SafeDeed (performance setting) assume I (fun result w ↦ ∀ value, result = .ok value → X value w)
    x.run w

section Rules

variable {setting : Setting} {squash : Bool}
  {assume : (command : Command) → command.Choice → World → Prop} {I : World → Prop} {β γ : Type}
  {X X' : β → World → Prop} {Y : γ → World → Prop} {x : Script β} {f : β → Script γ} {w : World}
  {command : Command}

theorem does_pure {value : β} (h : X value w) : DoesUnder setting assume I X (pure value) w :=
  safe_keeping_done fun _ _ hvalue ↦ Except.ok.inj hvalue ▸ h

theorem does_throw {why : String} : DoesUnder setting assume I X (throw why) w :=
  safe_keeping_done fun _ _ hvalue ↦ nomatch hvalue

theorem Does.imp (h : Does setting squash I X x w) (himp : ∀ value w, X value w → X' value w) :
    Does setting squash I X' x w :=
  h.mono fun _ _ hresult value hvalue ↦ himp value _ (hresult value hvalue)

theorem does_bind (h : DoesUnder setting assume I (fun value ↦ DoesUnder setting assume I Y (f value)) x w) :
    DoesUnder setting assume I Y (x >>= f) w := by
  refine safe_attempt_bind (h.mono fun result w' hresult ↦ ?_)
  cases result with
  | ok value => exact hresult value rfl
  | error why => exact safe_keeping_done fun _ _ hvalue ↦ nomatch hvalue

theorem does_call {X : command.Answer → World → Prop}
    (h : ∀ choice, assume command choice w → I (perform setting command choice w).2 ∧
      X (perform setting command choice w).1 (perform setting command choice w).2) :
    DoesUnder setting assume I X (call command) w := by
  refine safe_keeping_perform fun _ choice hchoice ↦ ?_
  obtain ⟨hI, hX⟩ := h choice hchoice
  refine ⟨hI, safe_keeping_done fun _ value hvalue ↦ ?_⟩
  cases hvalue
  exact hX

theorem does_ran {X : command.Yields → World → Prop} (hI : I w)
    (h : ∀ extra, assume command (.ok extra) w → I (act setting command extra w).2 ∧
      ∀ value, (act setting command extra w).1 = .ok value →
        X value (act setting command extra w).2) :
    DoesUnder setting assume I X (ran command) w := by
  refine does_bind (does_call fun choice hchoice ↦ ?_)
  cases choice with
  | error fault => cases fault <;> exact ⟨hI, does_throw⟩
  | ok extra =>
    obtain ⟨hkept, hvalue⟩ := h extra hchoice
    refine ⟨hkept, ?_⟩
    change DoesUnder setting assume I X _ (act setting command extra w).2
    generalize hanswer : (perform setting command (.ok extra) w).1 = answer
    rcases answer with (text | source) | value
    · exact does_throw
    · exact does_throw
    · exact does_pure (hvalue value hanswer)

theorem does_asked {X : Option command.Yields → World → Prop} (hI : I w)
    (hexit : ∀ text, assume command (.error (.exit text)) w → X none w)
    (h : ∀ extra, assume command (.ok extra) w → I (act setting command extra w).2 ∧
      (∀ value, (act setting command extra w).1 = .ok value →
        X (some value) (act setting command extra w).2) ∧
      ∀ text, (act setting command extra w).1 = .error (.exit text) →
        X none (act setting command extra w).2) :
    DoesUnder setting assume I X (asked command) w := by
  refine does_bind (does_call fun choice hchoice ↦ ?_)
  cases choice with
  | error fault =>
    cases fault with
    | exit text => exact ⟨hI, does_pure (hexit text hchoice)⟩
    | spawn source => exact ⟨hI, does_throw⟩
  | ok extra =>
    obtain ⟨hkept, hvalue, hnone⟩ := h extra hchoice
    refine ⟨hkept, ?_⟩
    change DoesUnder setting assume I X _ (act setting command extra w).2
    generalize hanswer : (perform setting command (.ok extra) w).1 = answer
    rcases answer with (text | source) | value
    · exact does_pure (hnone text hanswer)
    · exact does_throw
    · exact does_pure (hvalue value hanswer)

/-- A command that only looks. -/
theorem does_look {X : command.Yields → World → Prop} (hI : I w)
    (hsame : ∀ extra, (act setting command extra w).2 = w)
    (h : ∀ extra value, (act setting command extra w).1 = .ok value → X value w) :
    DoesUnder setting assume I X (ran command) w :=
  does_ran hI fun extra _ ↦ (hsame extra).symm ▸ ⟨hI, fun value hvalue ↦ h extra value hvalue⟩

/-- A command that only looks, where what it answers does not matter. -/
theorem does_glance {X : Option command.Yields → World → Prop} (hI : I w)
    (hsame : ∀ extra, (act setting command extra w).2 = w) (h : ∀ value, X value w) :
    DoesUnder setting assume I X (asked command) w :=
  does_asked hI (fun _ _ ↦ h none) fun extra _ ↦
    (hsame extra).symm ▸ ⟨hI, fun value _ ↦ h (some value), fun _ _ ↦ h none⟩

end Rules

/-! ### Readings -/

section Scripts

variable {setting : Setting} {squash : Bool} {I : World → Prop} {w : World} {side : Side}
  {name branch : RefName} {dest : Oid}

theorem does_readRef {X : Option Oid → World → Prop} (hI : I w) (h : X (w.ref side name) w) :
    Does setting squash I X (readRef side name) w := by
  refine does_asked hI (fun _ hexit ↦ hexit.elim) fun extra _ ↦ ?_
  dsimp only [act]
  split
  · next hnone =>
    rw [hnone] at h
    exact ⟨hI, fun _ hvalue ↦ (nomatch hvalue), fun _ _ ↦ h⟩
  · next oid hsome =>
    rw [hsome] at h
    exact ⟨hI, fun _ hvalue ↦ Except.ok.inj hvalue ▸ h, fun _ hvalue ↦ (nomatch hvalue)⟩

theorem does_rebasing {X : Bool → World → Prop} (hI : I w) (h : X w.home.rebasing.isSome w) :
    Does setting squash I X rebasing w := by
  refine does_bind (does_call fun choice hchoice ↦ ?_)
  cases choice with
  | error fault => exact hchoice.elim
  | ok extra =>
    refine ⟨hI, ?_⟩
    change Does setting squash I X _ w
    generalize hanswer : (perform setting .statRebase (.ok extra) w).1 = answer
    change (if w.home.rebasing.isSome then Except.ok ⟨⟩ else refused) = answer at hanswer
    split at hanswer
    · next hsome =>
      subst hanswer
      rw [hsome] at h
      exact does_pure h
    · next hnone =>
      subst hanswer
      rw [Bool.not_eq_true _ |>.mp hnone] at h
      exact does_pure h

theorem does_isRebasing {X : Bool → World → Prop} (hI : I w) (h : X w.home.rebasing.isSome w) :
    Does setting squash I X isRebasing w :=
  does_bind (does_look hI (fun _ ↦ rfl) fun _ _ _ ↦ does_rebasing hI h)

/-- The branch that is checked out is read, or nothing is. -/
theorem does_symbolicRef {X : Option RefName → World → Prop} (hI : I w) (hnone : X none w)
    (h : ∀ branch, w.head side = .symbolic branch → X (some branch) w) :
    Does setting squash I X (asked (.symbolicRef side)) w := by
  refine does_asked hI (fun _ _ ↦ hnone) fun extra _ ↦ ?_
  dsimp only [act]
  split
  · next branch hhead =>
    exact ⟨hI, fun _ hvalue ↦ Except.ok.inj hvalue ▸ h branch hhead, fun _ hvalue ↦ (nomatch hvalue)⟩
  · exact ⟨hI, fun _ hvalue ↦ (nomatch hvalue), fun _ _ ↦ hnone⟩

theorem does_branchOf {X : RefName → World → Prop} (hI : I w)
    (h : ∀ branch, w.home.head = .symbolic branch → X branch w) :
    Does setting squash I X (branchOf setting) w :=
  does_bind (does_symbolicRef hI does_throw fun branch hhead ↦ does_pure (h branch hhead))

theorem does_markerOf {X : String → World → Prop} (hI : I w)
    (h : ∀ unit, w.home.marker = some unit → X unit w) :
    Does setting squash I X (markerOf setting) w := by
  refine does_bind (does_look hI (fun _ ↦ rfl) fun extra value hvalue ↦ ?_)
  have hmarker : w.home.marker = value := Except.ok.inj hvalue
  cases value with
  | none => exact does_throw
  | some unit => exact does_pure (h unit hmarker)

theorem does_identity {assume : (command : Command) → command.Choice → World → Prop}
    {X : PUnit → World → Prop} (hI : I w) (h : X ⟨⟩ w) : DoesUnder setting assume I X identity w :=
  does_bind (does_glance hI (fun _ ↦ rfl) fun _ ↦ does_pure h)

/-! ### Moving the branch of the home -/

/-- The branch of the home is moved by `reset --keep`, or it is there already. -/
theorem does_restore {X : PUnit → World → Prop} (hI : I w) (hhead : w.home.head = .symbolic branch)
    (hthere : w.ref .home branch = some dest → X ⟨⟩ w)
    (h : ∀ tip, w.ref .home branch = some tip →
      I (w.keepHome setting tip dest) ∧ X ⟨⟩ (w.keepHome setting tip dest)) :
    Does setting squash I X (restore .home branch dest) w := by
  have htip : w.tip = w.ref .home branch := by
    rw [World.tip, hhead]
  refine does_bind (does_readRef hI ?_)
  split
  · next heq => exact does_pure (hthere heq)
  · refine does_bind (does_bind (does_symbolicRef hI (does_pure ?_) fun other hother ↦ does_pure ?_))
    · -- `git branch --force` refuses a branch that is checked out.
      refine does_ran hI fun extra _ ↦ ?_
      dsimp only [act]
      rw [if_neg fun hforce ↦ hforce.2.1 hhead]
      exact ⟨hI, fun _ hvalue ↦ (nomatch hvalue)⟩
    · obtain rfl : other = branch := Head.symbolic.inj (hother.symm.trans hhead)
      rw [decide_eq_true rfl]
      refine does_ran hI fun extra _ ↦ ?_
      dsimp only [act]
      split
      · exact ⟨hI, fun _ hvalue ↦ (nomatch hvalue)⟩
      · next tip hsome =>
        obtain ⟨hkept, hX⟩ := h tip (htip.symm.trans hsome)
        split
        · exact ⟨hkept, fun _ _ ↦ hX⟩
        · exact ⟨hI, fun _ hvalue ↦ (nomatch hvalue)⟩

/-- What `restoreHead` does where the ref it reads points at a commit. -/
theorem does_restoreHead {X : PUnit → World → Prop} (hI : I w)
    (hnone : w.ref .home name = none → X ⟨⟩ w)
    (hthere : ∀ oid branch, w.ref .home name = some oid → w.home.head = .symbolic branch →
      w.ref .home branch = some oid → X ⟨⟩ w)
    (h : ∀ oid branch tip, w.ref .home name = some oid → w.home.head = .symbolic branch →
      w.ref .home branch = some tip →
      I (w.keepHome setting tip oid) ∧ X ⟨⟩ (w.keepHome setting tip oid)) :
    Does setting squash I X (restoreHead setting name) w := by
  refine does_bind (does_readRef hI ?_)
  cases href : w.ref .home name with
  | none => exact does_pure (hnone href)
  | some oid =>
    refine does_bind (does_branchOf hI fun branch hhead ↦ ?_)
    exact does_restore hI hhead (hthere oid branch href hhead) fun tip ↦ h oid branch tip href hhead

theorem does_deleteRef {X : Unit → World → Prop} (hI : I w)
    (h : I (w.deleted setting name) ∧ X () (w.deleted setting name)) :
    Does setting squash I X (deleteRef name) w :=
  does_ran hI fun _ _ ↦ ⟨h.1, fun _ _ ↦ h.2⟩

/-- A rebase in progress is thrown away. -/
theorem does_abort {X : PUnit → World → Prop} (hI : I w) (hnone : w.home.rebasing = none → X ⟨⟩ w)
    (h : ∀ rebasing, w.home.rebasing = some rebasing →
      I (w.aborted setting rebasing) ∧ X ⟨⟩ (w.aborted setting rebasing)) :
    Does setting squash I X Plumbing.abort w := by
  refine does_bind (does_look hI (fun _ ↦ rfl) fun _ _ _ ↦ does_bind (does_rebasing hI ?_))
  cases hrebasing : w.home.rebasing with
  | none => exact does_pure (hnone hrebasing)
  | some rebasing =>
    refine does_ran hI fun _ _ ↦ ?_
    dsimp only [act]
    rw [hrebasing]
    exact ⟨(h rebasing hrebasing).1, fun _ _ ↦ (h rebasing hrebasing).2⟩

/-- A rebase command that runs, or stops. -/
theorem does_runRebase {X : Rebased → World → Prop} {command : Command} (hI : I w)
    (h : ∀ choice, answered squash command choice w →
      I (perform setting command choice w).2 ∧
        (∀ value, (perform setting command choice w).1 = .ok value →
          X .done (perform setting command choice w).2) ∧
        ((perform setting command choice w).2.home.rebasing.isSome = true →
          X .conflict (perform setting command choice w).2)) :
    Does setting squash I X (runRebase command) w := by
  refine does_bind (does_identity hI (does_bind (does_call fun choice hchoice ↦ ?_)))
  obtain ⟨hkept, hdone, hstopped⟩ := h choice hchoice
  refine ⟨hkept, ?_⟩
  generalize perform setting command choice w = result at hkept hdone hstopped ⊢
  obtain ⟨(text | source) | value, w'⟩ := result
  · refine does_bind (does_rebasing hkept ?_)
    split
    · next hsome => exact does_pure (hstopped hsome)
    · exact does_throw
  · exact does_throw
  · exact does_pure (hdone value rfl)

end Scripts

end Nodal.Merge
