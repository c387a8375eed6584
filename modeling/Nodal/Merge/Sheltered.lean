import Nodal.Lifecycle.Staged
import Nodal.Merge.RolledBack

/-!
# What keeps the commits a squash folded

A squash takes commits off the branch of a unit, and the unit's premerge ref is what still reaches
them. `Sheltered` is what holds while each squash is recorded and no record is lost: every commit that
was folded was recorded, and a ref that no merge moves reaches it. Every command but the one that
squashes and the one that writes a record keeps it wherever it is performed; where the record is deleted,
what other merges folded has to be reached from another ref (`honest`).
-/

set_option autoImplicit false

namespace Nodal.Merge

open Git Foundation Foundation.Attempt Lifecycle Lifecycle.TakenBack Plumbing

variable (setting : Setting)

/-! ### What is recorded and what is kept -/

/-- The premerge ref reached every commit the squash folded away. -/
def Fold.Recorded (fold : Fold) : Prop :=
  ∀ commit ∈ setting.range fold.folded fold.tip,
    ∃ record, fold.record = some record ∧ commit ∈ setting.reach record

/-- A ref of the home of some kind reaches a commit. -/
def World.HeldBy (kind : RefName → Prop) (w : World) (commit : Oid) : Prop :=
  ∃ name oid, kind name ∧ w.ref .home name = some oid ∧ commit ∈ setting.reach oid

/-- A ref that is neither a branch nor the one a merge fetches onto. -/
def Lasting (name : RefName) : Prop := startsWith HEADS name = false ∧ name ≠ target setting.unit

/-- What holds while what is folded is recorded, and no record is lost. -/
structure Sheltered (w : World) : Prop where
  head : ∀ name, w.home.head = .symbolic name → startsWith HEADS name = true
  rebasing : ∀ rebasing, w.home.rebasing = some rebasing → startsWith HEADS rebasing.branch = true
  source : ∀ name, w.source.head = .symbolic name → startsWith HEADS name = true
  recorded : ∀ fold ∈ w.folds, fold.Recorded setting
  kept : ∀ fold ∈ w.folds, ∀ commit ∈ setting.range fold.folded fold.tip,
    w.HeldBy setting (Lasting setting) commit

/-! ### What the outside has to do -/

/-- A premerge ref that is there is found, and where an undo or an abort deletes it, what the squashes
of other merges folded is reached from a ref that stays. -/
def honest : (command : Command) → command.Choice → World → Prop
  | .showRef .home name, .error (.exit _), w =>
    name = premerge setting.unit → w.ref .home name = none
  | .deleteRef name, .ok _, w =>
    name = premerge setting.unit → ∀ fold ∈ w.folds, fold.run ≠ w.current →
      ∀ commit ∈ setting.range fold.folded fold.tip,
        w.HeldBy setting (fun other ↦ Lasting setting other ∧ other ≠ name) commit
  | _, _, _ => True

variable {setting} {w w' : World} {name : RefName} {dest : Oid} {value : Option Oid}

/-! ### What one command does -/

/-- No ref that stays was touched, and no squash was added. -/
structure Carried (setting : Setting) (w w' : World) : Prop where
  refs : ∀ name oid, Lasting setting name → w.ref .home name = some oid →
    w'.ref .home name = some oid
  folds : w'.folds = w.folds
  source : ∀ name, w'.source.head = .symbolic name → w.source.head = .symbolic name

theorem World.HeldBy.carried {kind : RefName → Prop} {commit : Oid}
    (h : w.HeldBy setting kind commit) (hkind : ∀ name, kind name → Lasting setting name)
    (hrefs : ∀ name oid, kind name → Lasting setting name → w.ref .home name = some oid →
      w'.ref .home name = some oid) : w'.HeldBy setting (Lasting setting) commit := by
  obtain ⟨name, oid, hname, href, hreach⟩ := h
  exact ⟨name, oid, hkind name hname, hrefs name oid hname (hkind name hname) href, hreach⟩

theorem Sheltered.of_carried (hw : Sheltered setting w) (h : Carried setting w w')
    (hhead : ∀ name, w'.home.head = .symbolic name → startsWith HEADS name = true)
    (hrebasing : ∀ rebasing, w'.home.rebasing = some rebasing →
      startsWith HEADS rebasing.branch = true) : Sheltered setting w' where
  head := hhead
  rebasing := hrebasing
  source name hname := hw.source name (h.source name hname)
  recorded fold hfold := hw.recorded fold (h.folds ▸ hfold)
  kept fold hfold commit hcommit :=
    (hw.kept fold (h.folds ▸ hfold) commit hcommit).carried (fun _ hname ↦ hname)
      fun name oid hname _ ↦ h.refs name oid hname

/-- The index and the working tree are not among what is kept. -/
theorem Sheltered.with_trees (hw : Sheltered setting w) (index work : Tree) :
    Sheltered setting { w with home := { w.home with index, work } } :=
  ⟨hw.head, hw.rebasing, hw.source, hw.recorded, hw.kept⟩

theorem not_lasting_of_heads (h : startsWith HEADS name = true) : ¬Lasting setting name := by
  rintro ⟨hname, -⟩
  rw [h] at hname
  cases hname

theorem not_lasting_target : ¬Lasting setting (target setting.unit) := fun h ↦ h.2 rfl

theorem lasting_premerge : Lasting setting (premerge setting.unit) := by
  refine ⟨startsWith_premerge _, ?_⟩
  simp [premerge, target, NAMESPACE]

/-- A ref is written that does not stay, or that nothing was at. -/
theorem carried_setRef {store : ℕ} (h : ¬Lasting setting name ∨ w.refs store name = none) :
    Carried setting w (w.setRef store name value) where
  refs other oid hother href := by
    have hne : w.home.store ≠ store ∨ other ≠ name := by
      by_contra hsame
      obtain ⟨hstore, hname⟩ := not_or.mp hsame
      obtain rfl := not_not.mp hstore
      obtain rfl := not_not.mp hname
      exact h.elim (fun hnot ↦ hnot hother) fun hnone ↦ (by cases hnone.symm.trans href)
    exact (World.refs_setRef_of_ne hne).trans href
  folds := rfl
  source _ hsource := hsource

theorem Sheltered.setRef (hw : Sheltered setting w) {store : ℕ}
    (h : ¬Lasting setting name ∨ w.refs store name = none) :
    Sheltered setting (w.setRef store name value) :=
  hw.of_carried (carried_setRef h) hw.head hw.rebasing

theorem Sheltered.moveHead (hw : Sheltered setting w) : Sheltered setting (w.moveHead dest) := by
  unfold World.moveHead
  split
  · next name hname => exact hw.setRef (.inl (not_lasting_of_heads (hw.head name hname)))
  · exact ⟨fun name hname ↦ (by cases hname), hw.rebasing, hw.source, hw.recorded, hw.kept⟩

theorem Sheltered.moveSource (hw : Sheltered setting w) {why : Why}
    (hname : startsWith HEADS name = true) :
    Sheltered setting (w.moveSource setting why name dest) := by
  have hset : Sheltered setting (w.setRef w.source.store name (some dest)) :=
    hw.setRef (.inl (not_lasting_of_heads hname))
  unfold World.moveSource
  dsimp only
  split
  · exact ⟨hset.head, hset.rebasing, hset.source, hset.recorded, hset.kept⟩
  · exact hset

/-- A rebase ends on its branch, or stops beside it. -/
theorem Sheltered.rebased (hw : Sheltered setting w) {rebasing : Rebasing}
    (hbranch : startsWith HEADS rebasing.branch = true) {tracked : Tree} {outcome : Outcome} :
    Sheltered setting (w.rebased setting rebasing tracked outcome).2 := by
  cases outcome with
  | done tip work =>
    dsimp only [World.rebased]
    split
    · have hset : Sheltered setting (w.setRef w.home.store rebasing.branch (some tip)) :=
        hw.setRef (.inl (not_lasting_of_heads hbranch))
      exact ⟨fun name hname ↦ Head.symbolic.inj hname ▸ hbranch, fun _ hnone ↦ (by cases hnone),
        hset.source, hset.recorded, hset.kept⟩
    · exact hw
  | stopped tip index work =>
    dsimp only [World.rebased]
    split
    · exact ⟨fun name hname ↦ (by cases hname), fun other hother ↦ Option.some.inj hother ▸ hbranch,
        hw.source, hw.recorded, hw.kept⟩
    · exact hw

theorem Sheltered.aborted (hw : Sheltered setting w) {rebasing : Rebasing}
    (hbranch : startsWith HEADS rebasing.branch = true) :
    Sheltered setting (w.aborted setting rebasing) := by
  have hset : Sheltered setting (w.setRef w.home.store rebasing.branch (some rebasing.original)) :=
    hw.setRef (.inl (not_lasting_of_heads hbranch))
  exact ⟨fun name hname ↦ Head.symbolic.inj hname ▸ hbranch, fun _ hnone ↦ (by cases hnone),
    hset.source, hset.recorded, hset.kept⟩

/-- A commit of another squash is kept when the record of the run at work is deleted. -/
theorem Sheltered.deleted (hw : Sheltered setting w) (hname : name = target setting.unit ∨
    name = premerge setting.unit) (hhonest : honest setting (.deleteRef name) (.ok ⟨⟩) w) :
    Sheltered setting (w.deleted setting name) := by
  unfold World.deleted
  dsimp only
  split
  · next heq =>
    subst heq
    refine ⟨hw.head, hw.rebasing, hw.source, fun fold hfold ↦ ?_, fun fold hfold commit hcommit ↦ ?_⟩
    · exact hw.recorded fold (List.mem_filter.mp hfold).1
    · obtain ⟨hfold, hrun⟩ := List.mem_filter.mp hfold
      refine (hhonest rfl fold hfold (of_decide_eq_true hrun) commit hcommit).carried
        (fun _ hkind ↦ hkind.1) fun other oid hkind _ href ↦ ?_
      exact (World.refs_setRef_of_ne (.inr hkind.2)).trans href
  · next hne =>
    obtain rfl := hname.resolve_right hne
    exact hw.setRef (.inl not_lasting_target)

/-- A squash whose branch the premerge ref reaches. -/
theorem Sheltered.folded (hw : Sheltered setting w) {tip : Oid}
    (hrecord : ∃ record, w.ref .home (premerge setting.unit) = some record ∧
      ∀ commit ∈ setting.reach tip, commit ∈ setting.reach record) :
    Sheltered setting { w.moveHead dest with
      folds := w.folds ++ [⟨w.current, tip, dest, w.ref .home (premerge setting.unit)⟩] } := by
  obtain ⟨record, href, hcovers⟩ := hrecord
  have hmoved : Sheltered setting (w.moveHead dest) := hw.moveHead
  have hcarried : Carried setting w (w.moveHead dest) := by
    unfold World.moveHead
    split
    · next name hname => exact carried_setRef (.inl (not_lasting_of_heads (hw.head name hname)))
    · exact ⟨fun _ _ _ hname ↦ hname, rfl, fun _ hname ↦ hname⟩
  refine ⟨hmoved.head, hmoved.rebasing, hmoved.source, fun fold hfold ↦ ?_,
    fun fold hfold commit hcommit ↦ ?_⟩
  · rcases List.mem_append.mp hfold with hfold | hfold
    · exact hw.recorded fold hfold
    · obtain rfl := List.mem_singleton.mp hfold
      exact fun commit hcommit ↦ ⟨record, href, hcovers commit (History.mem_range_iff.mp hcommit).1⟩
  · rcases List.mem_append.mp hfold with hfold | hfold
    · exact hmoved.kept fold (hcarried.folds ▸ hfold) commit hcommit
    · obtain rfl := List.mem_singleton.mp hfold
      exact ⟨premerge setting.unit, record, lasting_premerge,
        hcarried.refs _ _ lasting_premerge href, hcovers commit (History.mem_range_iff.mp hcommit).1⟩

/-! ### What a process owes -/

/-- A process that is alone keeps every record. -/
abbrev sheltering (setting : Setting) : Contract Process World Command Command.Choice :=
  keeping (performance setting).beside (honest setting) (Sheltered setting)

section Scripts

variable {command : Command} {branch : RefName} {side : Side} {why : Why}

theorem allows_sheltering (h : ∀ w extra, Sheltered setting w →
    honest setting command (.ok extra) w → Sheltered setting (act setting command extra w).2) :
    Allows (sheltering setting) command := by
  intro process w hw choice hchoice
  cases choice with
  | error fault => exact hw
  | ok extra => exact h w extra hw hchoice

theorem lenient_sheltering : Lenient (sheltering setting) := by
  intro command hplain
  refine allows_sheltering fun w extra hw _ ↦ ?_
  cases command with
  | resetKeep _ _ _ | branchForce _ _ _ _ | resetSoft _ | fetchBranch _ _ | updateRef _ _
    | deleteRef _ | snapshot _ => cases hplain
  | gitDir | statRebase | revParse _ | revParseHead | fetchObjects _ | diffCached | identity
    | mergeBase _ | count _ | commitTree _ | isAncestor _ _ _ | readMarker => exact hw
  | showRef _ _ | symbolicRef _ =>
    dsimp only [Merge.act]
    split <;> exact hw
  | addAll => exact hw.with_trees _ _
  | commit =>
    dsimp only [Merge.act]
    split
    · exact hw.moveHead
    · exact hw
  | resetMixed _ | work =>
    dsimp only [Merge.act]
    split
    · exact hw.moveHead.with_trees _ _
    · exact hw
  | rebase onto =>
    dsimp only [Merge.act]
    split
    · next branch tip _ hhead _ =>
      split
      · exact hw.rebased (hw.head branch hhead)
      · exact hw
    · exact hw
  | rebaseContinue =>
    dsimp only [Merge.act]
    split
    · next rebasing hrebasing => exact hw.rebased (hw.rebasing rebasing hrebasing)
    · exact hw
  | rebaseAbort =>
    dsimp only [Merge.act]
    split
    · next rebasing hrebasing => exact hw.aborted (hw.rebasing rebasing hrebasing)
    · exact hw
  | advance =>
    dsimp only [Merge.act]
    split
    · exact hw
    · split
      · have hset : Sheltered setting (w.setRef w.source.store setting.watched (some extra)) :=
          hw.setRef (.inl (not_lasting_of_heads setting.watched_heads))
        exact ⟨hset.head, hset.rebasing, hset.source, hset.recorded, hset.kept⟩
      · exact hw

theorem allows_resetKeep : Allows (sheltering setting) (.resetKeep side why dest) := by
  refine allows_sheltering fun w extra hw _ ↦ ?_
  cases side with
  | home =>
    dsimp only [Merge.act]
    split
    · exact hw
    · split
      · exact hw.moveHead.with_trees _ _
      · exact hw
  | source =>
    dsimp only [Merge.act]
    split
    · split
      · next name hname => exact hw.moveSource (hw.source name hname)
      · exact ⟨hw.head, hw.rebasing, fun name hname ↦ (by cases hname), hw.recorded, hw.kept⟩
    · exact hw

theorem allows_branchForce (hbranch : startsWith HEADS branch = true) :
    Allows (sheltering setting) (.branchForce side why branch dest) := by
  refine allows_sheltering fun w extra hw _ ↦ ?_
  cases side with
  | home =>
    dsimp only [Merge.act]
    split
    · exact hw.setRef (.inl (not_lasting_of_heads hbranch))
    · exact hw
  | source =>
    dsimp only [Merge.act]
    split
    · exact hw.moveSource hbranch
    · exact hw

theorem allows_fetchBranch :
    Allows (sheltering setting) (.fetchBranch branch (target setting.unit)) := by
  refine allows_sheltering fun w extra hw _ ↦ ?_
  dsimp only [Merge.act]
  split
  · exact hw
  · exact hw.setRef (.inl not_lasting_target)

theorem allows_deleteRef (hname : name = target setting.unit ∨ name = premerge setting.unit) :
    Allows (sheltering setting) (.deleteRef name) :=
  allows_sheltering fun _ _ hw hhonest ↦ hw.deleted hname hhonest

theorem heeds_restoreHead_sheltering : Heeds setting (sheltering setting) (restoreHead setting name) :=
  heeds_restoreHead lenient_sheltering (fun _ branch hw ↦ hw.head branch) (fun _ ↦ allows_resetKeep)
    fun _ _ ↦ allows_branchForce

theorem heeds_abortMerge_sheltering : Heeds setting (sheltering setting) (abortMerge setting) :=
  heeds_abortMerge lenient_sheltering (fun _ ↦ allows_resetKeep)
    (fun _ ↦ allows_branchForce setting.branch_heads) (allows_deleteRef (.inr rfl))
    (allows_deleteRef (.inl rfl))

/-- What keeps the contract in any process keeps it in a step. -/
theorem Heeds.does {β : Type} {x : Script β} (h : Heeds setting (sheltering setting) x) (w : World) :
    DoesUnder setting (honest setting) (Sheltered setting) (fun _ _ ↦ True) x w :=
  (safeDeed_of_beside (h.safe ⟨⟨"", 0⟩, 0⟩ w)).mono fun _ _ _ _ _ ↦ trivial

end Scripts

end Nodal.Merge
