import Nodal.Trash.Sweep

/-!
# What a sweep that can be killed anywhere removes, and what it forgets

Along every history of sweeps, each killed at any point, a home that was not forced into the trash is
only acted on after a reading found every commit of it somewhere else, made while the home stood
whole under its own name; what stands under a row's own name is whole; and a row goes when nothing
stands under either name.

Two answers are taken for something they do not say: a `HEAD` that could not be read for a `HEAD` that
names nothing, and a `stat` that failed for a home that is not there. The history is one in which
neither happens.
-/

set_option autoImplicit false

namespace Nodal.Trash

open Git Removal Foundation

/-! ### What is kept -/

/-- One of some readings let a home go: it was made while the home stood whole under its own name,
and found every commit of it outside. -/
def LetGo (readings : List Reading) (entry : Trashed) : Prop :=
  ∃ reading ∈ readings, reading.entry = entry ∧
    (∃ root siblings, reading.input = entry.input root siblings) ∧
    (∃ tree, reading.stood = some tree ∧ tree.whole = true) ∧
    ∀ commit, InHome reading.disk reading.input commit → Found reading.disk reading.input commit

/-- What the history of a trash owes to whoever put a home there. -/
structure Accounted (w : World) : Prop where
  acts : ∀ act ∈ w.acts, act.entry.rested.reAsks = true → LetGo act.readings act.entry
  whole : ∀ entry ∈ w.rows, ∀ tree, w.stands entry.path = some tree → tree.whole = true
  forgotten : ∀ gone ∈ w.forgotten, gone.own = none ∧ gone.removing = none

/-- What holds between two operations of a sweep. -/
structure Kept (w : World) : Prop extends Accounted w where
  oneName : ∀ entry ∈ w.rows, w.stands entry.path ≠ none → w.going entry = none
  read : ∀ entry ∈ w.rows, entry.rested.reAsks = true → w.going entry ≠ none →
    LetGo w.readings entry

/-- What has to hold when a sweep performs an operation. -/
def Owed : Effect → World → Prop
  | .rename entry, w => entry ∈ w.rows ∧
      (entry.rested.reAsks = true → w.stands entry.path ≠ none → LetGo w.readings entry)
  | .readDir entry, w | .unlink entry _, w | .rmdir entry, w => entry ∈ w.rows
  | .forget entry, w => w.stands entry.path = none ∧ w.going entry = none
  | _, _ => True

/-- A home that stands is seen to, and its `HEAD` is read. -/
def Answers : (effect : Effect) → effect.Fails → World → Prop
  | .stat entry, fails, w => fails = true → w.stands entry.path = none
  | .read entry root, _, w => HeadRead w.disk (w.input entry root)
  | _, _, _ => True

variable {ι : Type} {w w' : World} {entry entry' : Trashed} {effect : Effect}
  {fails : effect.Fails}

theorem LetGo.mono {readings readings' : List Reading} (h : readings ⊆ readings')
    (hread : LetGo readings entry) : LetGo readings' entry := by
  obtain ⟨reading, hmem, hrest⟩ := hread
  exact ⟨reading, h hmem, hrest⟩

/-! ### One operation -/

theorem beside_ne_path : beside entry'.path ≠ entry.path := fun h ↦ entry.unmarked _ h.symm

/-- Changing what stands under a removing name changes nothing under a row's own. -/
theorem stands_update_beside {stands : Path → Option Tree} {tree : Option Tree} :
    Function.update stands (beside entry'.path) tree entry.path = stands entry.path :=
  Function.update_of_ne beside_ne_path.symm _ _

theorem going_update_of_ne {stands : Path → Option Tree} {tree : Option Tree}
    (hentry : entry ∈ w.rows) (hentry' : entry' ∈ w.rows) (hne : entry ≠ entry') :
    Function.update stands (beside entry'.path) tree (beside entry.path) =
      stands (beside entry.path) :=
  Function.update_of_ne
    (fun h ↦ hne (w.rows.apart entry hentry entry' hentry' (beside_injective h))) _ _

theorem accounted_acting {stands : Path → Option Tree} (hkept : Kept w)
    (hread : entry.rested.reAsks = true → LetGo w.readings entry)
    (hwhole : ∀ entry' ∈ w.rows, ∀ tree, stands entry'.path = some tree → tree.whole = true) :
    Accounted (w.acting entry stands) where
  acts act hact := by
    rcases List.mem_append.mp hact with hold | hnew
    · exact hkept.acts act hold
    · rw [List.mem_singleton.mp hnew]
      exact hread
  whole := hwhole
  forgotten := hkept.forgotten

/-- Going on with a removal that has begun keeps what is kept, whatever it leaves. -/
theorem kept_acting_going (hkept : Kept w) (hentry : entry ∈ w.rows) (hgoing : w.going entry ≠ none)
    (tree : Option Tree) :
    Kept (w.acting entry (Function.update w.stands (beside entry.path) tree)) where
  toAccounted := accounted_acting hkept (fun hasks ↦ hkept.read entry hentry hasks hgoing)
    fun entry' hentry' tree' htree' ↦ by
      rw [stands_update_beside] at htree'
      exact hkept.whole entry' hentry' tree' htree'
  oneName entry' hentry' hstands := by
    change Function.update w.stands (beside entry.path) tree entry'.path ≠ none at hstands
    rw [stands_update_beside] at hstands
    by_cases hsame : entry' = entry
    · subst hsame
      exact absurd (hkept.oneName entry' hentry' hstands) hgoing
    · exact (going_update_of_ne hentry' hentry hsame).trans
        (hkept.oneName entry' hentry' hstands)
  read entry' hentry' hasks hstands := by
    by_cases hsame : entry' = entry
    · subst hsame
      exact hkept.read entry' hentry' hasks hgoing
    · refine hkept.read entry' hentry' hasks fun hnone ↦ hstands ?_
      exact (going_update_of_ne hentry' hentry hsame).trans hnone

/-- Moving a home that was let go to the removing name keeps what is kept. -/
theorem kept_acting_rename {tree : Tree} (hkept : Kept w) (hentry : entry ∈ w.rows)
    (hread : entry.rested.reAsks = true → LetGo w.readings entry) :
    Kept (w.acting entry (Function.update (Function.update w.stands entry.path none)
      (beside entry.path) (some tree))) where
  toAccounted := accounted_acting hkept hread fun entry' hentry' tree' htree' ↦ by
    rw [stands_update_beside] at htree'
    by_cases hsame : entry'.path = entry.path
    · rw [hsame, Function.update_self] at htree'
      cases htree'
    · rw [Function.update_of_ne hsame] at htree'
      exact hkept.whole entry' hentry' tree' htree'
  oneName entry' hentry' hstands := by
    change Function.update (Function.update w.stands entry.path none) (beside entry.path)
      (some tree) entry'.path ≠ none at hstands
    rw [stands_update_beside] at hstands
    by_cases hsame : entry' = entry
    · subst hsame
      rw [Function.update_self] at hstands
      exact absurd rfl hstands
    · have hpath : entry'.path ≠ entry.path := fun h ↦
        hsame (w.rows.apart entry' hentry' entry hentry h)
      rw [Function.update_of_ne hpath] at hstands
      refine (going_update_of_ne hentry' hentry hsame).trans ?_
      rw [Function.update_of_ne beside_ne_path]
      exact hkept.oneName entry' hentry' hstands
  read entry' hentry' hasks hstands := by
    by_cases hsame : entry' = entry
    · subst hsame
      exact hread hasks
    · refine hkept.read entry' hentry' hasks fun hnone ↦ hstands ?_
      refine (going_update_of_ne hentry' hentry hsame).trans ?_
      rw [Function.update_of_ne beside_ne_path]
      exact hnone

/-- An operation that is owed keeps what is kept. -/
theorem kept_perform (hkept : Kept w) (howed : Owed effect w) :
    Kept (perform effect fails w).2 := by
  cases effect with
  | listProjects => exact hkept
  | listExpired now => exact hkept
  | stat entry => exact hkept
  | read entry root =>
    exact ⟨⟨hkept.acts, hkept.whole, hkept.forgotten⟩, hkept.oneName,
      fun entry' hentry' hasks hgoing ↦
        (hkept.read entry' hentry' hasks hgoing).mono (List.subset_append_left _ _)⟩
  | rename entry =>
    dsimp only [perform]
    split
    · exact hkept
    · exact hkept
    · next tree hstands =>
      split
      · exact hkept
      · exact kept_acting_rename hkept howed.1 fun hasks ↦ howed.2 hasks (by simp [hstands])
  | readDir entry =>
    dsimp only [perform]
    split <;> exact hkept
  | unlink entry name =>
    dsimp only [perform]
    split
    · exact hkept
    · exact hkept
    · next tree hgoing => exact kept_acting_going hkept howed (by simp [hgoing]) _
  | rmdir entry =>
    dsimp only [perform]
    split
    · exact hkept
    · exact hkept
    · next tree hgoing =>
      split
      · exact hkept
      · exact kept_acting_going hkept howed (by simp [hgoing]) _
  | forget entry =>
    dsimp only [perform]
    split
    · exact hkept
    · have hsub : ∀ entry' ∈ w.rows.remove entry.environmentId, entry' ∈ w.rows :=
        fun entry' hentry' ↦ (Rows.mem_remove.mp hentry').1
      refine ⟨⟨hkept.acts, fun entry' h ↦ hkept.whole entry' (hsub _ h), fun gone hgone ↦ ?_⟩,
        fun entry' h ↦ hkept.oneName entry' (hsub _ h), fun entry' h ↦ hkept.read entry' (hsub _ h)⟩
      rcases List.mem_append.mp hgone with hold | hnew
      · exact hkept.forgotten gone hold
      · rw [List.mem_singleton.mp hnew]
        exact howed

/-- What happens between two sweeps keeps what is kept. -/
theorem kept_elsewhere (hkept : Kept w) (h : Elsewhere w w') :
    Kept { w' with readings := w.readings, acts := w.acts, forgotten := w.forgotten } := by
  obtain ⟨hold, hnew⟩ := h
  have hcases : ∀ entry ∈ w'.rows, (entry ∈ w.rows ∧
      (w'.stands entry.path = w.stands entry.path ∨ w'.stands entry.path = none) ∧
        (w'.going entry = w.going entry ∨ w'.going entry = none)) ∨
      (w'.stands entry.path).any Tree.whole = true ∧ w'.going entry = none := by
    intro entry hentry
    refine (hnew entry hentry).imp (fun hwas ↦ ⟨hwas, ?_⟩) id
    exact (hold entry hwas).2
  refine ⟨⟨hkept.acts, fun entry hentry tree htree ↦ ?_, hkept.forgotten⟩,
    fun entry hentry hstands ↦ ?_, fun entry hentry hasks hgoing ↦ ?_⟩
  · change w'.stands entry.path = some tree at htree
    rcases hcases entry hentry with ⟨hwas, hown | hown, -⟩ | ⟨hwhole, -⟩
    · exact hkept.whole entry hwas tree (hown.symm.trans htree)
    · rw [hown] at htree
      cases htree
    · simpa [htree] using hwhole
  · change w'.going entry = none
    change w'.stands entry.path ≠ none at hstands
    rcases hcases entry hentry with ⟨hwas, hown | hown, hgoing | hgoing⟩ | ⟨-, hnone⟩
    · exact hgoing.trans (hkept.oneName entry hwas (hown ▸ hstands))
    · exact hgoing
    · exact absurd hown hstands
    · exact hgoing
    · exact hnone
  · change w'.going entry ≠ none at hgoing
    rcases hcases entry hentry with ⟨hwas, -, hsame | hnone⟩ | ⟨-, hnone⟩
    · exact hkept.read entry hwas hasks (hsame ▸ hgoing)
    · exact absurd hnone hgoing
    · exact absurd hnone hgoing

/-! ### The programs -/

/-- What a sweep may count on and what it owes. Nobody else acts while it runs. -/
def contract (ι : Type) : Contract ι World Effect Effect.Fails where
  inv := Kept
  rely _ w w' := w = w'
  rely_refl _ _ := rfl
  rely_trans _ _ _ _ := Eq.trans
  assume _ := Answers
  pre _ := Owed

/-- What a sweep still does keeps the contract. -/
abbrev SafeSweep {β : Type} [DecidableEq ι] (i : ι) (Q : β → World → Prop)
    (p : Program Effect Effect.Answer β) (w : World) : Prop :=
  Safe (machine ι) (contract ι) i Q p w

variable [DecidableEq ι] {i : ι} {β : Type}

theorem safe_done {Q : β → World → Prop} {value : β} (h : Q value w) :
    SafeSweep i Q (.done value) w := by
  rintro w' rfl -
  exact h

/-- One operation, and what follows it. -/
theorem safe_ask {Q : Except Raised β → World → Prop} {f : effect.Answer → Script β}
    (h : Kept w → Owed effect w ∧ ∀ fails, Answers effect fails w →
      SafeSweep i Q (f (perform effect fails w).1).run (perform effect fails w).2) :
    SafeSweep i Q (ask effect >>= f).run w := by
  rintro w' rfl hkept
  exact h hkept

/-- One operation. -/
theorem safe_ask_last {Q : Except Raised effect.Answer → World → Prop}
    (h : Kept w → Owed effect w ∧ ∀ fails, Answers effect fails w →
      Q (.ok (perform effect fails w).1) (perform effect fails w).2) :
    SafeSweep i Q (ask effect).run w := by
  rintro w' rfl hkept
  obtain ⟨howed, hrest⟩ := h hkept
  exact ⟨howed, fun fails hanswers ↦ safe_done (hrest fails hanswers)⟩

/-- A home that a sweep does not keep was let go, or is not there, or is not asked about. -/
theorem safe_heldBack {registered : Table ProjectId Path} (hentry : entry ∈ w.rows) :
    SafeSweep i (fun result w' ↦ w'.rows = w.rows ∧ (result = .ok none →
      entry.rested.reAsks = true → w'.stands entry.path ≠ none → LetGo w'.readings entry))
      (heldBack registered entry).run w := by
  by_cases hasks : entry.rested.reAsks = true
  · unfold heldBack readAgain
    rw [if_pos hasks]
    refine safe_ask fun hkept ↦ ⟨trivial, fun fails hstat ↦ ?_⟩
    by_cases hthere : (perform (.stat entry) fails w).1 = true
    · have hstands : w.stands entry.path ≠ none := by
        have hsome := (Bool.and_eq_true_iff.mp hthere).2
        exact Option.ne_none_iff_isSome.mpr hsome
      rw [if_pos hthere]
      cases registered.get? entry.projectId with
      | none => exact safe_done ⟨rfl, by rintro ⟨⟩⟩
      | some root =>
        refine safe_ask fun _ ↦ ⟨trivial, fun fails hhead ↦ ?_⟩
        cases hanswer : onlyHere w.disk (w.input entry root) w.clock with
        | error why =>
          simp only [perform, hanswer]
          exact safe_done ⟨rfl, by rintro ⟨⟩⟩
        | ok found =>
          cases found with
          | some finding =>
            simp only [perform, hanswer]
            exact safe_done ⟨rfl, by rintro ⟨⟩⟩
          | none =>
            simp only [perform, hanswer]
            refine safe_done ⟨rfl, fun _ _ _ ↦ ?_⟩
            obtain ⟨tree, htree⟩ := Option.ne_none_iff_exists'.mp hstands
            exact ⟨_, List.mem_append_right _ (List.mem_singleton_self _), rfl, ⟨root, _, rfl⟩,
              ⟨tree, htree, hkept.whole entry hentry tree htree⟩, onlyHere_eq_none hhead hanswer⟩
    · rw [if_neg hthere]
      refine safe_done ⟨rfl, fun _ _ hstands ↦ absurd ?_ hstands⟩
      cases fails with
      | true => exact hstat rfl
      | false => simpa [perform] using hthere
  · unfold heldBack readAgain
    rw [if_neg hasks]
    exact safe_done ⟨rfl, fun _ hyes ↦ absurd hyes hasks⟩

/-- A home that was let go is no longer under its own name when its removal has begun. -/
theorem safe_beginRemoving (hentry : entry ∈ w.rows)
    (hread : entry.rested.reAsks = true → w.stands entry.path ≠ none → LetGo w.readings entry) :
    SafeSweep i (fun result w' ↦ w'.rows = w.rows ∧
      (result = .ok (.ok ⟨⟩) → w'.stands entry.path = none)) (beginRemoving entry).run w := by
  refine safe_ask fun _ ↦ ⟨trivial, fun fails hstat ↦ ?_⟩
  by_cases hthere : (perform (.stat entry) fails w).1 = true
  · rw [if_pos hthere]
    refine safe_ask_last fun _ ↦ ⟨⟨hentry, hread⟩, fun fails _ ↦ ?_⟩
    change (perform (.rename entry) fails w).2.rows = w.rows ∧ (_ →
      (perform (.rename entry) fails w).2.stands entry.path = none)
    dsimp only [perform]
    split
    · exact ⟨rfl, by rintro ⟨⟩⟩
    · exact ⟨rfl, by rintro ⟨⟩⟩
    · split
      · exact ⟨rfl, by rintro ⟨⟩⟩
      · refine ⟨rfl, fun _ ↦ ?_⟩
        change Function.update (Function.update w.stands entry.path none) _ _ entry.path = none
        rw [stands_update_beside, Function.update_self]
  · rw [if_neg hthere]
    refine safe_done ⟨rfl, fun _ ↦ ?_⟩
    cases fails with
    | true => exact hstat rfl
    | false => simpa [perform] using hthere

/-- What a removal under way leaves alone: the rows, and the home's own name. -/
def Aside (entry : Trashed) (w w' : World) : Prop :=
  w'.rows = w.rows ∧ w'.stands entry.path = w.stands entry.path

theorem Aside.trans {w'' : World} (h : Aside entry w w') (h' : Aside entry w' w'') :
    Aside entry w w'' :=
  ⟨h'.1.trans h.1, h'.2.trans h.2⟩

theorem aside_unlink {name : String} {fails : Bool} :
    Aside entry w (perform (.unlink entry name) fails w).2 := by
  dsimp only [perform]
  split
  · exact ⟨rfl, rfl⟩
  · exact ⟨rfl, rfl⟩
  · exact ⟨rfl, stands_update_beside⟩

/-- Removing the names of a directory says it is not there only where it is not. -/
theorem safe_unlinkEach {names : List String} (hentry : entry ∈ w.rows) :
    SafeSweep i (fun result w' ↦ Aside entry w w' ∧
      (result = .ok (.error .notFound) → w'.going entry = none))
      (unlinkEach entry names).run w := by
  induction names generalizing w with
  | nil => exact safe_done ⟨⟨rfl, rfl⟩, by rintro ⟨⟩⟩
  | cons name names ih =>
    refine safe_ask fun _ ↦ ⟨hentry, fun fails hanswers ↦ ?_⟩
    have haside : Aside entry w (perform (.unlink entry name) fails w).2 := aside_unlink
    cases hanswer : (perform (.unlink entry name) fails w).1 with
    | ok _ =>
      dsimp only
      exact (ih (haside.1 ▸ hentry)).mono fun result w' h ↦ ⟨haside.trans h.1, h.2⟩
    | error why =>
      dsimp only
      refine safe_done ⟨haside, fun hfound ↦ ?_⟩
      obtain rfl : why = .notFound := by simpa using hfound
      dsimp only [perform] at hanswer ⊢
      split at hanswer
      · cases hanswer
      · next hnone => exact hnone
      · cases hanswer

/-- A directory that was removed, or was not there, is not there. -/
theorem safe_removeDirAll (hentry : entry ∈ w.rows) :
    SafeSweep i (fun result w' ↦ Aside entry w w' ∧
      (result = .ok (.ok ⟨⟩) ∨ result = .ok (.error .notFound) → w'.going entry = none))
      (removeDirAll entry).run w := by
  refine safe_ask fun _ ↦ ⟨hentry, fun fails hanswers ↦ ?_⟩
  have hsame : (perform (.readDir entry) fails w).2 = w := by
    dsimp only [perform]
    split <;> rfl
  rw [hsame]
  cases hanswer : (perform (.readDir entry) fails w).1 with
  | error why =>
    dsimp only
    refine safe_done ⟨⟨rfl, rfl⟩, fun hfound ↦ ?_⟩
    obtain rfl : why = .notFound := by simpa using hfound
    dsimp only [perform] at hanswer
    split at hanswer
    · cases hanswer
    · next hnone => exact hnone
    · cases hanswer
  | ok names =>
    dsimp only
    refine safe_attempt_bind ((safe_unlinkEach hentry).mono fun result w' ⟨haside, hgone⟩ ↦ ?_)
    rcases result with _ | (why | _)
    · exact safe_done ⟨haside, by rintro (⟨⟨⟩⟩ | ⟨⟨⟩⟩)⟩
    · refine safe_done ⟨haside, fun hfound ↦ hgone ?_⟩
      simpa using hfound
    · have hentry' : entry ∈ w'.rows := haside.1 ▸ hentry
      refine safe_ask_last fun _ ↦ ⟨hentry', fun fails hanswers ↦ ?_⟩
      dsimp only [perform]
      split
      · exact ⟨haside, by rintro (⟨⟨⟩⟩ | ⟨⟨⟩⟩)⟩
      · next hnone => exact ⟨haside, fun _ ↦ hnone⟩
      · split
        · exact ⟨haside, by rintro (⟨⟨⟩⟩ | ⟨⟨⟩⟩)⟩
        · refine ⟨haside.trans ⟨rfl, stands_update_beside⟩, fun _ ↦ ?_⟩
          exact Function.update_self ..

theorem safe_removeTree (hentry : entry ∈ w.rows) :
    SafeSweep i (fun result w' ↦ Aside entry w w' ∧
      (result = .ok (.ok ⟨⟩) → w'.going entry = none)) (removeTree entry).run w := by
  refine safe_attempt_bind ((safe_removeDirAll hentry).mono fun result w' ⟨haside, hgone⟩ ↦ ?_)
  rcases result with _ | ((_ | _) | _)
  · exact safe_done ⟨haside, by rintro ⟨⟩⟩
  · exact safe_done ⟨haside, fun _ ↦ hgone (.inr rfl)⟩
  · -- the second attempt is made after the directories were opened
    have hentry' : entry ∈ w'.rows := haside.1 ▸ hentry
    refine safe_attempt_bind ((safe_removeDirAll hentry').mono fun result w'' ⟨haside', hgone'⟩ ↦ ?_)
    have hboth := haside.trans haside'
    rcases result with _ | ((_ | _) | _)
    · exact safe_done ⟨hboth, by rintro ⟨⟩⟩
    · exact safe_done ⟨hboth, fun _ ↦ hgone' (.inr rfl)⟩
    · exact safe_done ⟨hboth, by rintro ⟨⟩⟩
    · exact safe_done ⟨hboth, fun _ ↦ hgone' (.inl rfl)⟩
  · exact safe_done ⟨haside, fun _ ↦ hgone (.inl rfl)⟩

/-- Taking one home away leaves every other row. -/
theorem safe_sweepOne {registered : Table ProjectId Path} (hentry : entry ∈ w.rows) :
    SafeSweep i (fun _ w' ↦ ∀ other ∈ w.rows, other.environmentId ≠ entry.environmentId →
      other ∈ w'.rows) (sweepOne registered entry).run w := by
  refine safe_attempt_bind ((safe_heldBack hentry).mono fun result w₁ ⟨hrows, hread⟩ ↦ ?_)
  rcases result with _ | (_ | fate)
  · exact safe_done fun other hother _ ↦ hrows ▸ hother
  · refine safe_attempt_bind ((safe_beginRemoving (hrows ▸ hentry) (hread rfl)).mono
      fun result w₂ ⟨hrows', hbegun⟩ ↦ ?_)
    have hrows₂ : w₂.rows = w.rows := hrows'.trans hrows
    rcases result with _ | (why | _)
    · exact safe_done fun other hother _ ↦ hrows₂ ▸ hother
    · exact safe_done fun other hother _ ↦ hrows₂ ▸ hother
    · refine safe_attempt_bind ((safe_removeTree (hrows₂ ▸ hentry)).mono
        fun result w₃ ⟨haside, hgone⟩ ↦ ?_)
      have hrows₃ : w₃.rows = w.rows := haside.1.trans hrows₂
      rcases result with _ | (why | _)
      · exact safe_done fun other hother _ ↦ hrows₃ ▸ hother
      · exact safe_done fun other hother _ ↦ hrows₃ ▸ hother
      · have hown : w₃.stands entry.path = none := haside.2.trans (hbegun rfl)
        refine safe_ask fun _ ↦ ⟨⟨hown, hgone rfl⟩, fun fails _ ↦ ?_⟩
        cases fails with
        | true => exact safe_done fun other hother _ ↦ hrows₃ ▸ hother
        | false =>
          refine safe_done fun other hother hne ↦ ?_
          exact Rows.mem_remove.mpr ⟨hrows₃ ▸ hother, hne⟩
  · exact safe_done fun other hother _ ↦ hrows ▸ hother

theorem safe_sweep {registered : Table ProjectId Path} {expired : List Trashed}
    (hrows : ∀ entry ∈ expired, entry ∈ w.rows)
    (hapart : expired.Pairwise fun e e' ↦ e.environmentId ≠ e'.environmentId) :
    SafeSweep i (fun _ _ ↦ True) (sweep registered expired).run w := by
  induction expired generalizing w with
  | nil => exact safe_done trivial
  | cons entry expired ih =>
    obtain ⟨hfirst, hrest⟩ := List.pairwise_cons.mp hapart
    refine safe_attempt_bind ((safe_sweepOne (hrows entry List.mem_cons_self)).mono
      fun result w' hothers ↦ ?_)
    cases result with
    | error raised => exact safe_done trivial
    | ok fate =>
      have hlater : ∀ other ∈ expired, other ∈ w'.rows := fun other hother ↦
        hothers other (hrows other (List.mem_cons_of_mem _ hother)) (hfirst other hother).symm
      refine safe_attempt_bind ((ih hlater hrest).mono fun result w'' _ ↦ ?_)
      cases result with
      | error raised => exact safe_done trivial
      | ok fates => exact safe_done trivial

theorem safe_collect {now : Instant} :
    SafeSweep i (fun _ _ ↦ True) (collect now).run w := by
  refine safe_ask fun _ ↦ ⟨trivial, fun fails _ ↦ ?_⟩
  cases fails with
  | true => exact safe_done trivial
  | false =>
    refine safe_ask fun _ ↦ ⟨trivial, fun fails _ ↦ ?_⟩
    cases fails with
    | true => exact safe_done trivial
    | false =>
      exact safe_sweep (fun entry ↦ Rows.mem_of_listExpired) Rows.pairwise_listExpired

/-! ### Histories -/

/-- A step whose `stat` sees a home that stands, and whose reading reads `HEAD`. -/
def Answered {α : Type} (c : Config ι World Effect Effect.Answer α)
    (label : Label ι Start Effect Effect.Fails) : Prop :=
  ∀ i fails, label = .act i fails → ∀ effect rest, c.running i = some (.perform effect rest) →
    Answers effect (fails effect) c.world

theorem sound : Sound (machine ι) (contract ι) (fun _ _ _ ↦ True)
    (fun c label ↦ Answered c label ∧ Alone c label) where
  assume hP hrunning := hP.1 _ _ rfl _ _ hrunning
  act {c i choice effect rest} hP hrunning hkept howed := by
    refine ⟨kept_perform hkept howed, fun j p hji hj ↦ ?_⟩
    rw [hP.2 j hji] at hj
    cases hj
  enter {c i start world} hP hrunning hworld hkept := by
    dsimp only [machine] at hworld
    split at hworld
    · next helsewhere =>
      cases hworld
      refine ⟨kept_elsewhere hkept helsewhere, safe_collect, fun j p hji hj ↦ ?_⟩
      rw [hP.2 j hji] at hj
      cases hj
    · cases hworld
  leave {c i p} hP hrunning hkept := by
    refine ⟨hkept, fun j q hji hj ↦ ?_⟩
    rw [hP.2 j hji] at hj
    cases hj

/-- A trash no sweep has been to: each home stands whole under its own name, or was taken away. -/
structure Fresh (w : World) : Prop where
  acts : w.acts = []
  forgotten : w.forgotten = []
  homes : ∀ entry ∈ w.rows.table.values,
    (w.stands entry.path).all Tree.whole = true ∧ w.going entry = none

theorem Fresh.kept (h : Fresh w) : Kept w where
  acts act hact := by
    rw [h.acts] at hact
    cases hact
  whole entry hentry tree htree := by
    have hall := (h.homes entry hentry).1
    rw [htree] at hall
    exact hall
  forgotten gone hgone := by
    rw [h.forgotten] at hgone
    cases hgone
  oneName entry hentry _ := (h.homes entry hentry).2
  read entry hentry _ hgoing := absurd (h.homes entry hentry).2 hgoing

/-- Sweeps one after the other, each killed at any point, and a last one that is still under way,
leave a trash that is accounted for.

Assumes: no `stat` of a home that stands fails, and each reading of a home reads its `HEAD`, or its
refs already reach whatever `HEAD` would say. -/
theorem sweeps_accounted {sweeps : List (Session ι Start Effect Effect.Fails)}
    {last : Session ι Start Effect Effect.Fails}
    {c : Config ι World Effect Effect.Answer (Except Raised (List (Trashed × Fate)))}
    (hfresh : Fresh w)
    (hanswered : (machine ι).Along Answered ⟨w, fun _ ↦ none⟩
      (sweeps.flatMap Session.complete ++ last.steps))
    (hexec : (machine ι).exec ⟨w, fun _ ↦ none⟩
      (sweeps.flatMap Session.complete ++ last.steps) = some c) :
    Accounted c.world := by
  have hidle : Idle (⟨w, fun _ ↦ none⟩ :
      Config ι World Effect Effect.Answer (Except Raised (List (Trashed × Fate)))) := fun _ ↦ rfl
  have hguarded := sound.guarded_exec (hanswered.and_along (alone_sessions hidle)) hexec
    ⟨hfresh.kept, by rintro i p ⟨⟩⟩
  exact hguarded.1.toAccounted

/-! ### One disk throughout -/

/-- What is there, and what was ever read, is of one disk. -/
structure OnDisk (disk : Disk) (w : World) : Prop where
  now : w.disk = disk
  read : ∀ reading ∈ w.readings, reading.disk = disk
  before : ∀ act ∈ w.acts, ∀ reading ∈ act.readings, reading.disk = disk

theorem OnDisk.acting {disk : Disk} {stands : Path → Option Tree} (h : OnDisk disk w) :
    OnDisk disk (w.acting entry stands) := by
  refine ⟨h.now, h.read, fun act hact ↦ ?_⟩
  rcases List.mem_append.mp hact with hold | hnew
  · exact h.before act hold
  · rw [List.mem_singleton.mp hnew]
    exact h.read

theorem OnDisk.perform {disk : Disk} (h : OnDisk disk w) :
    OnDisk disk (perform effect fails w).2 := by
  cases effect with
  | listProjects => exact h
  | listExpired now => exact h
  | stat entry => exact h
  | read entry root =>
    refine ⟨h.now, fun reading hreading ↦ ?_, h.before⟩
    rcases List.mem_append.mp hreading with hold | hnew
    · exact h.read reading hold
    · rw [List.mem_singleton.mp hnew]
      exact h.now
  | readDir entry =>
    dsimp only [Trash.perform]
    split <;> exact h
  | forget entry =>
    dsimp only [Trash.perform]
    split
    · exact h
    · exact ⟨h.now, h.read, h.before⟩
  | unlink entry name =>
    dsimp only [Trash.perform]
    split
    · exact h
    · exact h
    · exact h.acting
  | rename entry | rmdir entry =>
    dsimp only [Trash.perform]
    split
    · exact h
    · exact h
    · split
      · exact h
      · exact h.acting

variable {α : Type} {c c' : Config ι World Effect Effect.Answer (Except Raised (List (Trashed × Fate)))}
  {labels : List (Label ι Start Effect Effect.Fails)} {disk : Disk}

/-- Assumes: every sweep starts on one disk. So does everything else. -/
theorem onDisk_next {label : Label ι Start Effect Effect.Fails}
    (hlabel : ∀ i start, label = .enter i start → start.world.disk = disk)
    (hnext : (machine ι).next c label = some c') (h : OnDisk disk c.world) :
    OnDisk disk c'.world := by
  cases label with
  | enter i start =>
    obtain ⟨-, world, hworld, rfl⟩ := Machine.next_enter_eq_some.mp hnext
    dsimp only [machine] at hworld
    split at hworld
    · cases hworld
      exact ⟨hlabel i start rfl, h.read, h.before⟩
    · cases hworld
  | act i choice =>
    obtain ⟨effect, rest, -, rfl⟩ := Machine.next_act_eq_some.mp hnext
    exact h.perform
  | leave i =>
    obtain ⟨p, -, rfl⟩ := Machine.next_leave_eq_some.mp hnext
    exact h

/-- Assumes: every sweep starts on a disk where every reading answers, and no `stat` fails. -/
theorem along_answered (hfails : ∀ path command, disk.fails path command = none)
    (hstarts : ∀ label ∈ labels, ∀ i start, label = .enter i start → start.world.disk = disk)
    (hacts : ∀ label ∈ labels, ∀ i fails, label = .act i fails → ∀ entry, fails (.stat entry) = false)
    (h : OnDisk disk c.world) : (machine ι).Along Answered c labels := by
  have halong := (Machine.along_of_labels (M := machine ι) (c := c) hstarts).and_invariant
    (fun _ _ _ ↦ onDisk_next) h
  refine (halong.and hacts).mono fun c label ⟨⟨_, hdisk⟩, hstat⟩ i fails hlabel effect rest _ ↦ ?_
  have hanswers : ∀ path command, c.world.disk.fails path command = none := fun path command ↦ by
    rw [hdisk.now]
    exact hfails path command
  cases effect with
  | stat entry =>
    intro htrue
    rw [hstat i fails hlabel entry] at htrue
    cases htrue
  | read entry root => exact fun repository _ head _ ↦ .inl (hanswers _ _)
  | _ => trivial

/-! ### One home, and two sweeps -/

private def oneParent (commit : Oid) : List Oid :=
  if commit = ⟨2⟩ then [⟨1⟩] else []

private def ahead : Repository oneParent :=
  .ordinary [⟨["refs", "heads", "main"], ⟨1⟩⟩] (.detached ⟨2⟩) [⟨2⟩, ⟨1⟩] (by decide)

/-- A trashed home on no branch, one commit ahead of the branch it left, and its project. -/
private def detached (project : Repository oneParent) (fails : Path → Command → Option Failure) :
    Disk :=
  .ordinaries oneParent (fun _ ↦ [])
    (fun path ↦
      if path = "/trash/1" then some ahead
      else if path = "/project" then some project
      else none) fails

private def behind : Repository oneParent :=
  .ordinary [⟨["refs", "heads", "main"], ⟨1⟩⟩] (.symbolic ["refs", "heads", "main"]) [⟨1⟩] (by decide)

private def caughtUp : Repository oneParent :=
  .ordinary [⟨["refs", "heads", "main"], ⟨2⟩⟩] (.symbolic ["refs", "heads", "main"]) [⟨2⟩, ⟨1⟩]
    (by decide)

private def trashed : Trashed where
  environmentId := "1"
  projectId := "P1"
  path := "/trash/1"
  snapshot := none
  rested := .safe []
  trashedAt := 0
  expiresAt := 0
  unmarked other h := by
    have hlength := congrArg String.length h
    rw [beside, REMOVING, String.length_append] at hlength
    have hshort : "/trash/1".length = 8 := by decide
    have hsuffix : ".removing".length = 9 := by decide
    omega

/-- The home under its own name, or what is left of it under the removing name. -/
private def oneHome (disk : Disk) (stands : Path → Option Tree) : World where
  rows :=
    { table := (∅ : Table EnvId Trashed).set "1" trashed
      keyed := by decide +kernel
      apart := by decide +kernel }
  stands
  projects := (∅ : Table ProjectId Path).set "P1" "/project"
  siblings _ := []
  disk
  clock := 0
  readings := []
  acts := []
  forgotten := []

private def homeThere (path : Path) : Option Tree :=
  if path = "/trash/1" then some ⟨["a"], true⟩ else none

private def homeGoing (path : Path) : Option Tree :=
  if path = "/trash/1.removing" then some ⟨[], false⟩ else none

/-- A sweep of a number of operations none of which fails. -/
private def sweepOf (disk : Disk) (stands : Path → Option Tree) (operations : ℕ) :
    Session PUnit Start Effect Effect.Fails :=
  ⟨⟨⟩, ⟨0, oneHome disk stands⟩, List.replicate operations fun _ ↦ false⟩

private theorem only_oneHome : ∀ entry ∈ ((∅ : Table EnvId Trashed).set "1" trashed).values,
    (homeThere entry.path).all Tree.whole = true ∧ homeThere (beside entry.path) = none := by
  decide +kernel

private theorem fresh_oneHome : Fresh (oneHome disk homeThere) :=
  ⟨rfl, rfl, only_oneHome⟩

private theorem acts_sweepOf {stands : Path → Option Tree} {operations : ℕ}
    {label : Label PUnit Start Effect Effect.Fails} (h : label ∈ (sweepOf disk stands operations).steps) :
    (∀ i start, label = .enter i start → start.world.disk = disk) ∧
      ∀ i fails, label = .act i fails → ∀ entry, fails (.stat entry) = false := by
  rcases List.mem_cons.mp h with rfl | hact
  · refine ⟨fun i start heq ↦ ?_, by rintro i fails ⟨⟩⟩
    cases heq
    rfl
  · obtain ⟨fails, hfails, rfl⟩ := List.mem_map.mp hact
    rw [List.eq_of_mem_replicate hfails]
    refine ⟨by rintro i start ⟨⟩, fun i fails heq entry ↦ ?_⟩
    cases heq
    rfl

/-- A sweep that is killed when the tree is half gone, and one that ends. -/
private theorem labels_twoSweeps {label : Label PUnit Start Effect Effect.Fails}
    (h : label ∈ [sweepOf disk homeThere 8].flatMap Session.complete ++
      (sweepOf disk homeGoing 7).steps) :
    (∀ i start, label = .enter i start → start.world.disk = disk) ∧
      ∀ i fails, label = .act i fails → ∀ entry, fails (.stat entry) = false := by
  rcases List.mem_append.mp h with hfirst | hlast
  · obtain ⟨session, hsession, hlabel⟩ := List.mem_flatMap.mp hfirst
    rw [List.mem_singleton.mp hsession] at hlabel
    rcases List.mem_append.mp hlabel with hsteps | hleave
    · exact acts_sweepOf hsteps
    · rw [List.mem_singleton.mp hleave]
      exact ⟨by rintro i start ⟨⟩, by rintro i fails ⟨⟩⟩
  · exact acts_sweepOf hlast

theorem sweeps_accounted_twoSweeps : ∃ c, (machine PUnit).exec
    ⟨oneHome (detached caughtUp fun _ _ ↦ none) homeThere, fun _ ↦ none⟩
    ([sweepOf (detached caughtUp fun _ _ ↦ none) homeThere 8].flatMap Session.complete ++
      (sweepOf (detached caughtUp fun _ _ ↦ none) homeGoing 7).steps) = some c ∧
    c.world.forgotten = [⟨trashed, none, none⟩] ∧ c.world.acts.length = 3 ∧
    Accounted c.world := by
  have hrun : ((machine PUnit).exec
      ⟨oneHome (detached caughtUp fun _ _ ↦ none) homeThere, fun _ ↦ none⟩
      ([sweepOf (detached caughtUp fun _ _ ↦ none) homeThere 8].flatMap Session.complete ++
        (sweepOf (detached caughtUp fun _ _ ↦ none) homeGoing 7).steps)).any (fun c ↦
      c.world.forgotten = [⟨trashed, none, none⟩] ∧ c.world.acts.length = 3) = true := by
    decide +kernel
  obtain ⟨c, hexec, hcheck⟩ := Option.any_eq_true _ _ |>.mp hrun
  obtain ⟨hforgotten, hacts⟩ := of_decide_eq_true hcheck
  refine ⟨c, hexec, hforgotten, hacts, sweeps_accounted fresh_oneHome ?_ hexec⟩
  exact along_answered (fun _ _ ↦ rfl) (fun label h ↦ (labels_twoSweeps h).1)
    (fun label h ↦ (labels_twoSweeps h).2) ⟨rfl, by rintro _ ⟨⟩, by rintro _ ⟨⟩⟩

/-- `git rev-parse HEAD` does not start in the home. -/
private def noRevParse (path : Path) (command : Command) : Option Failure :=
  if path = "/trash/1" ∧ command = .revParseHead then some .other else none

/-- The commit on a detached `HEAD` nobody could read is nowhere else, and the sweep begins to remove
the home. -/
theorem begun_over_unread_head : ∃ c, (machine PUnit).exec
    ⟨oneHome (detached behind noRevParse) homeThere, fun _ ↦ none⟩
    ([].flatMap Session.complete ++
      (sweepOf (detached behind noRevParse) homeThere 6).steps) = some c ∧
    ¬Accounted c.world := by
  have hrun : ((machine PUnit).exec
      ⟨oneHome (detached behind noRevParse) homeThere, fun _ ↦ none⟩
      ([].flatMap Session.complete ++
        (sweepOf (detached behind noRevParse) homeThere 6).steps)).any (fun c ↦
      c.world.acts.map Act.entry = [trashed]) = true := by
    decide +kernel
  obtain ⟨c, hexec, hcheck⟩ := Option.any_eq_true _ _ |>.mp hrun
  refine ⟨c, hexec, fun haccounted ↦ ?_⟩
  have hmem : trashed ∈ c.world.acts.map Act.entry := by
    rw [of_decide_eq_true hcheck]
    exact List.mem_singleton_self _
  obtain ⟨act, hact, hentry⟩ := List.mem_map.mp hmem
  have hasks : act.entry.rested.reAsks = true := by
    rw [hentry]
    rfl
  obtain ⟨reading, hreading, -, ⟨root, siblings, hinput⟩, -, hfound⟩ :=
    haccounted.acts act hact hasks
  have hdisk : OnDisk (detached behind noRevParse) c.world :=
    Machine.exec_induction (fun _ _ _ ↦ onDisk_next)
      (Machine.along_of_labels fun label h ↦ (acts_sweepOf h).1) hexec
      ⟨rfl, by rintro _ ⟨⟩, by rintro _ ⟨⟩⟩
  rw [hdisk.before act hact reading hreading, hinput, hentry] at hfound
  -- the reading's tips are the branch, which does not reach what `HEAD` names
  have hread := headRead_of_found hfound
  rcases hread _ rfl ⟨2⟩ rfl with hanswers | hreached
  · have hnone : noRevParse "/trash/1" .revParseHead = none := hanswers
    exact absurd hnone (by decide)
  · obtain ⟨tip, htip, hholds⟩ := hreached ⟨2⟩ ⟨by decide, Relation.ReflTransGen.refl⟩
    obtain rfl : tip = ⟨1⟩ := by
      have htips : workTips ahead none = [⟨1⟩] := by decide +kernel
      have hwork : tip ∈ workTips ahead none := htip
      rw [htips] at hwork
      exact List.mem_singleton.mp hwork
    have hreached : (⟨2⟩ : Oid) ∈ ahead.reach [⟨1⟩] :=
      ahead.mem_reach_iff.mpr ⟨⟨1⟩, List.mem_singleton_self _, hholds⟩
    exact absurd hreached (by decide)

end Nodal.Trash
