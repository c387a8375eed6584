import Nodal.Merge.Does

/-!
# The steps of a merge can be taken back

For each step of a merge, what stands before it and what may stand while it is applied or undone. A
merge that fails or dies at any step, and is rolled back, leaves the unit's branch where it was, every
file that Git does not ignore as it was, and the premerge ref as it was.
-/

set_option autoImplicit false

namespace Nodal.Merge

open Git Foundation Foundation.Attempt Lifecycle Lifecycle.TakenBack Plumbing

/-! ### What changes nothing -/

/-- Nothing that is kept was touched. -/
structure Unseen (setting : Setting) (w w' : World) : Prop where
  home : w'.home = w.home
  source : w'.source.store = w.source.store
  branch : w'.ref .home setting.branch = w.ref .home setting.branch
  record : w'.ref .home (premerge setting.unit) = w.ref .home (premerge setting.unit)

section Frames

variable {setting : Setting} {start w w' : World} {record : Option Oid} {tip dest : Oid}

theorem Kept.unseen (h : Kept setting start record w) (hw : Unseen setting w w') :
    Kept setting start record w' where
  marker := hw.home ▸ h.marker
  home := hw.home ▸ h.home
  source := hw.source.trans h.source
  record := hw.record.trans h.record

theorem At.unseen (h : At setting start record tip w) (hw : Unseen setting w w') :
    At setting start record tip w' where
  toKept := h.toKept.unseen hw
  head := hw.home ▸ h.head
  rebasing := hw.home ▸ h.rebasing
  branch := hw.branch.trans h.branch
  files := hw.home ▸ h.files

theorem Before.unseen (h : Before setting start record tip w) (hw : Unseen setting w w') :
    Before setting start record tip w' where
  toAt := h.toAt.unseen hw
  work := hw.home ▸ h.work
  tracked := hw.home ▸ h.tracked

theorem Stopped.unseen (h : Stopped setting start record tip w) (hw : Unseen setting w w') :
    Stopped setting start record tip w' where
  toKept := h.toKept.unseen hw
  clean := h.clean
  rebasing := hw.home ▸ h.rebasing
  spares := hw.home ▸ h.spares

theorem Moved.unseen (h : Moved setting start record tip w) (hw : Unseen setting w w') :
    Moved setting start record tip w' where
  toKept := h.toKept.unseen hw
  clean := h.clean
  head := hw.home ▸ h.head
  rebasing := hw.home ▸ h.rebasing
  rebased := by
    obtain ⟨moved, hmoved, hlays, hspares⟩ := h.rebased
    exact ⟨moved, hw.branch.trans hmoved, hw.home ▸ hlays, hw.home ▸ hspares⟩

/-- A ref of the home is written that is neither the branch nor the premerge ref. -/
theorem unseen_setRef {name : RefName} (value : Option Oid) (hbranch : setting.branch ≠ name)
    (hrecord : premerge setting.unit ≠ name) :
    Unseen setting w (w.setRef w.home.store name value) where
  home := rfl
  source := rfl
  branch := World.refs_setRef_of_ne (.inr hbranch)
  record := World.refs_setRef_of_ne (.inr hrecord)

theorem branch_ne {name : RefName} (h : startsWith HEADS name = false) : setting.branch ≠ name := by
  rintro rfl
  rw [setting.branch_heads] at h
  cases h

theorem premerge_ne_target (unit : String) : premerge unit ≠ target unit := by
  simp [premerge, target, NAMESPACE]

theorem premerge_ne_pre (unit operation : String) : premerge unit ≠ pre unit operation := by
  simp [premerge, pre, NAMESPACE]

theorem unseen_deleted : Unseen setting w (w.deleted setting (target setting.unit)) := by
  unfold World.deleted
  dsimp only
  rw [if_neg (premerge_ne_target _).symm]
  exact unseen_setRef none (branch_ne (startsWith_target _)) (premerge_ne_target _)

/-- A branch of the checkout is moved that the home does not share. -/
theorem unseen_moveSource {why : Why} {name : RefName} (hname : startsWith HEADS name = true)
    (h : w.home.store = w.source.store → setting.branch ≠ name) :
    Unseen setting w (w.moveSource setting why name dest) := by
  have hrecord : premerge setting.unit ≠ name := by
    rintro rfl
    rw [startsWith_premerge] at hname
    cases hname
  have hset : Unseen setting w (w.setRef w.source.store name (some dest)) := by
    refine ⟨rfl, rfl, World.refs_setRef_of_ne ?_, World.refs_setRef_of_ne (.inr hrecord)⟩
    by_cases hstore : w.home.store = w.source.store
    · exact .inr (h hstore)
    · exact .inl hstore
  unfold World.moveSource
  dsimp only
  split
  · exact ⟨hset.home, hset.source, hset.branch, hset.record⟩
  · exact hset

/-! ### Moving the branch of the home -/

/-- The home is on its branch. -/
theorem moveHead_of_symbolic (h : w.home.head = .symbolic setting.branch) :
    w.moveHead dest = w.setRef w.home.store setting.branch (some dest) := by
  unfold World.moveHead
  rw [h]

theorem Kept.setBranch (h : Kept setting start record w) (dest : Oid) :
    Kept setting start record (w.setRef w.home.store setting.branch (some dest)) where
  marker := h.marker
  home := h.home
  source := h.source
  record :=
    (World.refs_setRef_of_ne (.inr (branch_ne (startsWith_premerge _)).symm)).trans h.record

theorem At.tip_eq (h : At setting start record tip w) : w.tip = some tip := by
  rw [World.tip, h.head]
  exact h.branch

/-- The branch is moved, and the index with it or not. -/
theorem At.moveHead (h : At setting start record tip w) (index : Tree) :
    At setting start record dest { w.moveHead dest with
      home := { (w.moveHead dest).home with index } } := by
  rw [moveHead_of_symbolic h.head]
  exact ⟨⟨h.marker, h.home, h.source, (h.toKept.setBranch _).record⟩, h.head, h.rebasing,
    World.refs_setRef_self, h.files⟩

theorem Before.moveHead (h : Before setting start record tip w) (dest : Oid) :
    Before setting start record dest (w.moveHead dest) := by
  have hmoved : At setting start record dest (w.moveHead dest) := h.toAt.moveHead _
  rw [moveHead_of_symbolic h.head] at hmoved ⊢
  exact ⟨hmoved, h.work, h.tracked⟩

/-- The branch is put back over a rebase, or over a commit with the same files. -/
theorem At.keepHome (h : At setting start record tip w) (htree : setting.tree tip = setting.tree dest) :
    At setting start record dest (w.keepHome setting tip dest) := by
  have hwork : Same setting start
      (keptWork (setting.tree tip) (setting.tree dest) w.home.work) := by
    intro path hpath
    rw [get?_keptWork, htree, if_pos rfl]
    exact h.files path hpath
  unfold World.keepHome
  rw [moveHead_of_symbolic h.head]
  exact ⟨⟨h.marker, h.home, h.source, (h.toKept.setBranch _).record⟩, h.head, h.rebasing,
    World.refs_setRef_self, hwork⟩

theorem Moved.keepHome (h : Moved setting start record tip w) {moved : Oid}
    (hmoved : w.ref .home setting.branch = some moved) (htree : setting.tree tip = setting.tree dest) :
    At setting start record dest (w.keepHome setting moved dest) := by
  obtain ⟨moved', hmoved', hlays, hspares⟩ := h.rebased
  obtain rfl : moved' = moved := Option.some.inj (hmoved'.symm.trans hmoved)
  unfold World.keepHome
  rw [moveHead_of_symbolic h.head]
  exact ⟨⟨h.marker, h.home, h.source, (h.toKept.setBranch _).record⟩, h.head, h.rebasing,
    World.refs_setRef_self, same_keptWork h.clean hlays hspares htree⟩

/-- A rebase that ends on the files it began with has changed none. -/
theorem Moved.at (h : Moved setting start record tip w)
    (hdest : w.ref .home setting.branch = some dest) (htree : setting.tree tip = setting.tree dest) :
    At setting start record dest w := by
  obtain ⟨moved, hmoved, hlays, hspares⟩ := h.rebased
  obtain rfl : moved = dest := Option.some.inj (hmoved.symm.trans hdest)
  refine ⟨h.toKept, h.head, h.rebasing, hdest, fun path hpath ↦ ?_⟩
  have hsame := same_keptWork h.clean hlays hspares htree path hpath
  rwa [get?_keptWork, if_pos rfl] at hsame

/-- The rebase is thrown away. -/
theorem Stopped.aborted (h : Stopped setting start record tip w) {rebasing : Rebasing}
    (hrebasing : w.home.rebasing = some rebasing) :
    At setting start record tip (w.aborted setting rebasing) := by
  obtain ⟨rebasing', hrebasing', hbranch, horiginal⟩ := h.rebasing
  obtain rfl : rebasing' = rebasing := Option.some.inj (hrebasing'.symm.trans hrebasing)
  unfold World.aborted
  rw [hbranch, horiginal]
  exact ⟨⟨h.marker, h.home, h.source, (h.toKept.setBranch _).record⟩, rfl, rfl,
    World.refs_setRef_self, h.same_hardWork⟩

end Frames

/-! ### What stands before a step, and while it is applied or undone -/

section Stages

variable (setting : Setting) (params : Params) (start : World)

/-- The branch is where it was, or at the commit of the commit stage on it. -/
def Grounded (tip : Oid) : Prop :=
  tip = params.head ∨ params.stages.commit = true ∧ setting.parents tip = [params.head]

/-- What a squash leaves: the tip before it, the tip after it, and what the premerge ref holds. -/
structure Folded (before after : Oid) (record : Option Oid) : Prop where
  tree : setting.tree after = setting.tree before
  record : record =
    if params.stages.squash then some before else start.ref .home (premerge setting.unit)
  unfolded : params.stages.squash = false → after = before
  grounded : Grounded setting params before

/-- What stands before the first step. -/
def Beginning (w : World) : Prop :=
  Before setting start (start.ref .home (premerge setting.unit)) params.head w

def Committed (w : World) : Prop :=
  ∃ tip, Grounded setting params tip ∧ Before setting start (start.ref .home (premerge setting.unit)) tip w

def Recorded (w : World) : Prop :=
  ∃ tip, Grounded setting params tip ∧ Before setting start (some tip) tip w

def Squashed (w : World) : Prop :=
  ∃ before after record, Folded setting params start before after record ∧
    Before setting start record after w

/-- What is restored: the branch is where it was, and so are the files and the premerge ref. -/
def Restored (w : World) : Prop :=
  At setting start (start.ref .home (premerge setting.unit)) params.head w

def Committing (w : World) : Prop :=
  ∃ tip, Grounded setting params tip ∧ At setting start (start.ref .home (premerge setting.unit)) tip w

def Recording (w : World) : Prop :=
  ∃ tip record, Grounded setting params tip ∧
    (record = start.ref .home (premerge setting.unit) ∨ record = some tip) ∧
      At setting start record tip w

def Squashing (w : World) : Prop :=
  ∃ before after record, Folded setting params start before after record ∧
    At setting start record after w

/-- A rebase did not begin, or it stopped, or it was carried to its end. -/
def Rewriting (w : World) : Prop :=
  ∃ before after record, Folded setting params start before after record ∧
    (At setting start record after w ∨ Stopped setting start record after w ∨
      params.stages.squash = true ∧ Moved setting start record after w)

/-- What the fast-forward finds and leaves in the home. -/
def Forwarding (w : World) : Prop :=
  if params.stages.rebase then Rewriting setting params start w else Squashing setting params start w

/-- What a merge that is taken back supposes of where it began: where it records the branch or
rebases it, no earlier merge left a record, and the branch it merges into is another one. -/
structure Planned : Prop where
  fresh : params.stages.squash = true ∨ params.stages.rebase = true →
    start.ref .home (premerge setting.unit) = none
  apart : start.home.store = start.source.store → setting.branch ≠ params.target.branch

end Stages

/-! ### The steps -/

/-- A step with what stands before it and while it is applied or undone. -/
def Work.link (work : Work) (before during : World → Prop) : Link Command World Command.Answer where
  before := before
  during := during
  apply := work.apply.run
  undo := work.undo.run

/-- A step is sound where applying it leads to `next` and undoing it to `back`. -/
abbrev Work.Sound (setting : Setting) (squash : Bool) (work : Work)
    (before during back next : World → Prop) : Prop :=
  (work.link before during).Sound (performance setting) (answered squash) back next

section Steps

variable {setting : Setting} {params : Params} {start w : World}
  {before during back next : World → Prop}

theorem work_sound {squash : Bool} {work : Work} (hbegins : ∀ w, before w → during w)
    (hleaves : ∀ w, next w → during w)
    (happlies : ∀ w, before w → Does setting squash during (fun _ ↦ next) work.apply w)
    (hundoes : ∀ w, during w → Does setting squash during (fun _ ↦ back) work.undo w) :
    work.Sound setting squash before during back next where
  begins := hbegins
  leaves := hleaves
  applies := happlies
  undoes w hw := (hundoes w hw).mono fun _ _ hresult hok ↦ hresult () hok

theorem fetch_sound {squash : Bool} (hnext : ∀ w, next w ↔ Beginning setting params start w) :
    (FetchTarget setting params.target (target setting.unit)).Sound setting squash
      (Beginning setting params start) (Restored setting params start)
      (Restored setting params start) next := by
  refine work_sound (fun _ h ↦ h.toAt) (fun w h ↦ ((hnext w).mp h).toAt) (fun w hw ↦ ?_) fun w hw ↦ ?_
  · refine does_bind (does_bind (does_ran hw.toAt fun extra _ ↦ ?_))
    dsimp only [act]
    split
    · exact ⟨hw.toAt, fun _ hvalue ↦ (nomatch hvalue)⟩
    · next oid _ =>
      have hset : Beginning setting params start
          (w.setRef w.home.store (target setting.unit) (some oid)) :=
        hw.unseen (unseen_setRef _ (branch_ne (startsWith_target _)) (premerge_ne_target _))
      refine ⟨hset.toAt, fun _ _ ↦ does_bind (does_readRef hset.toAt ?_)⟩
      split
      · refine does_pure ?_
        split
        · exact does_pure ((hnext _).mpr hset)
        · exact does_throw
      · exact does_throw
  · exact does_deleteRef hw ⟨hw.unseen unseen_deleted, hw.unseen unseen_deleted⟩

theorem commit_sound (squash : Bool) (hcommit : params.stages.commit = true)
    (hnext : ∀ w, next w ↔ Committed setting params start w) :
    (CommitWork params.head).Sound setting squash (Beginning setting params start)
      (Committing setting params start) (Restored setting params start) next := by
  refine work_sound (fun _ h ↦ ⟨params.head, .inl rfl, h.toAt⟩) (fun w h ↦ ?_) (fun w hw ↦ ?_)
    fun w ⟨tip, htip, hw⟩ ↦ ?_
  · obtain ⟨tip, htip, hbefore⟩ := (hnext w).mp h
    exact ⟨tip, htip, hbefore.toAt⟩
  · -- The index takes every file but the ignored ones, so what it lost is no file.
    have hbegun (w : World) (h : Beginning setting params start w) :
        Committing setting params start w := ⟨params.head, .inl rfl, h.toAt⟩
    refine does_bind (does_bind (does_ran (hbegun w hw) fun _ _ ↦ ?_))
    have hadded : Beginning setting params start { w with
        home := { w.home with index := staged setting w.home.index w.home.work } } := by
      refine ⟨⟨⟨hw.marker, hw.home, hw.source, hw.record⟩, hw.head, hw.rebasing, hw.branch,
        hw.files⟩, hw.work, fun path hpath hlost ↦ ?_⟩
      have hlost := get?_staged setting w.home.index w.home.work path ▸ hlost
      split at hlost
      · next hignored => exact hw.tracked path hpath hignored.1
      · exact hw.work ▸ hlost
    refine ⟨hbegun _ hadded, fun _ _ ↦ does_bind (does_glance (hbegun _ hadded) (fun _ ↦ rfl)
      fun same ↦ ?_)⟩
    split
    · exact does_pure (does_pure ((hnext _).mpr ⟨params.head, .inl rfl, hadded⟩))
    · refine does_bind (does_identity (hbegun _ hadded) (does_bind (does_ran (hbegun _ hadded)
        fun made _ ↦ ?_)))
      dsimp only [act]
      split
      · next hmade =>
        rw [hadded.tip_eq, Option.any_some, decide_eq_true_iff] at hmade
        have hgrounded : Grounded setting params made := .inr ⟨hcommit, hmade.2.1⟩
        have hmoved := hadded.moveHead made
        have hcommitted : Committing setting params start _ := ⟨made, hgrounded, hmoved.toAt⟩
        refine ⟨hcommitted, fun _ _ ↦ does_bind (does_look hcommitted (fun _ ↦ rfl) fun _ _ _ ↦ ?_)⟩
        exact does_pure (does_pure ((hnext _).mpr ⟨made, hgrounded, hmoved⟩))
      · exact ⟨hbegun _ hadded, fun _ hvalue ↦ (nomatch hvalue)⟩
  · have hcommitting : Committing setting params start w := ⟨tip, htip, hw⟩
    refine does_bind (does_look hcommitting (fun _ ↦ rfl) fun _ value hvalue ↦ ?_)
    have hvalue : value = tip := by
      simpa [act, hw.tip_eq] using hvalue.symm
    subst hvalue
    split
    · next heq =>
      subst heq
      exact does_pure hw
    · refine does_ran hcommitting fun _ _ ↦ ?_
      dsimp only [act]
      split
      · have hback : Restored setting params start _ := hw.moveHead (setting.tree params.head)
        exact ⟨⟨params.head, .inl rfl, hback⟩, fun _ _ ↦ hback⟩
      · exact ⟨hcommitting, fun _ hvalue ↦ (nomatch hvalue)⟩

/-- The premerge ref is written or deleted. -/
theorem At.setRecord {record record' : Option Oid} {tip : Oid} (h : At setting start record tip w) :
    At setting start record' tip (w.setRef w.home.store (premerge setting.unit) record') :=
  ⟨⟨h.marker, h.home, h.source, World.refs_setRef_self⟩, h.head, h.rebasing,
    (World.refs_setRef_of_ne (.inr (branch_ne (startsWith_premerge _)))).trans h.branch, h.files⟩

theorem At.deleted {record : Option Oid} {tip : Oid} (h : At setting start record tip w) :
    At setting start none tip (w.deleted setting (premerge setting.unit)) := by
  have hset : At setting start none tip (w.setRef w.home.store (premerge setting.unit) none) :=
    h.setRecord
  unfold World.deleted
  dsimp only
  rw [if_pos rfl]
  exact hset.unseen ⟨rfl, rfl, rfl, rfl⟩

theorem record_sound {squash : Bool} (hfresh : start.ref .home (premerge setting.unit) = none)
    (hback : ∀ w, Committing setting params start w → back w)
    (hnext : ∀ w, next w ↔ Recorded setting params start w) :
    (RecordPremerge (premerge setting.unit)).Sound setting squash (Committed setting params start)
      (Recording setting params start) back next := by
  refine work_sound (fun w ⟨tip, htip, h⟩ ↦ ⟨tip, _, htip, .inl rfl, h.toAt⟩) (fun w h ↦ ?_)
    (fun w ⟨tip, htip, hw⟩ ↦ ?_) fun w ⟨tip, record, htip, hrecord, hw⟩ ↦ ?_
  · obtain ⟨tip, htip, hbefore⟩ := (hnext w).mp h
    exact ⟨tip, _, htip, .inr rfl, hbefore.toAt⟩
  · have hbegun : Recording setting params start w := ⟨tip, _, htip, .inl rfl, hw.toAt⟩
    have habsent : w.ref .home (premerge setting.unit) = none := hw.record.trans hfresh
    refine does_bind (does_readRef hbegun ?_)
    rw [habsent]
    refine does_bind (does_look hbegun (fun _ ↦ rfl) fun _ value hvalue ↦ ?_)
    have hvalue : value = tip := by
      simpa [act, hw.tip_eq] using hvalue.symm
    subst hvalue
    have hset : At setting start (some value) value
        (w.setRef w.home.store (premerge setting.unit) (some value)) := hw.toAt.setRecord
    have hwritten : Before setting start (some value) value
        (w.setRef w.home.store (premerge setting.unit) (some value)) := ⟨hset, hw.work, hw.tracked⟩
    refine does_bind (does_ran hbegun fun _ _ ↦ ⟨⟨value, _, htip, .inr rfl, hset⟩, fun _ _ ↦ ?_⟩)
    exact does_pure ((hnext _).mpr ⟨value, htip, hwritten⟩)
  · have hdropped := hw.deleted
    have hdropped' : At setting start (start.ref .home (premerge setting.unit)) tip
        (w.deleted setting (premerge setting.unit)) := hfresh.symm ▸ hdropped
    exact does_deleteRef ⟨tip, record, htip, hrecord, hw⟩
      ⟨⟨tip, _, htip, .inl rfl, hdropped'⟩, hback _ ⟨tip, htip, hdropped'⟩⟩

/-- What a squash folds has the files the branch had. -/
theorem squash_sound (hsquash : params.stages.squash = true)
    (hback : ∀ w, Recording setting params start w → back w)
    (hnext : ∀ w, next w ↔ Squashed setting params start w) :
    (Squash setting params.target.oid (premerge setting.unit)).Sound setting params.stages.squash
      (Recorded setting params start) (Squashing setting params start) back next := by
  have hfold {tip made : Oid} (htip : Grounded setting params tip)
      (htree : setting.tree made = setting.tree tip) :
      Folded setting params start tip made (some tip) :=
    ⟨htree, (if_pos hsquash).symm, (fun h ↦ by rw [hsquash] at h; cases h), htip⟩
  refine work_sound (fun w ⟨tip, htip, h⟩ ↦ ⟨tip, tip, _, hfold htip rfl, h.toAt⟩) (fun w h ↦ ?_)
    (fun w ⟨tip, htip, hw⟩ ↦ ?_) fun w ⟨tip, made, record, hfolded, hw⟩ ↦ ?_
  · obtain ⟨tip, made, record, hfolded, hbefore⟩ := (hnext w).mp h
    exact ⟨tip, made, record, hfolded, hbefore.toAt⟩
  · have hbegun : Squashing setting params start w := ⟨tip, tip, _, hfold htip rfl, hw.toAt⟩
    have hsame : next w := (hnext w).mpr ⟨tip, tip, _, hfold htip rfl, hw⟩
    refine does_bind (does_bind (does_look hbegun (fun _ ↦ rfl) fun _ base _ ↦ ?_))
    refine does_bind (does_look hbegun (fun _ ↦ rfl) fun _ count _ ↦ ?_)
    split
    · exact does_pure (does_pure hsame)
    · refine does_bind (does_identity hbegun (does_bind (does_look hbegun (fun _ ↦ rfl)
        fun extra made hmade ↦ ?_)))
      have htree : setting.tree made = setting.tree tip := by
        simp only [act, hw.tip_eq, Option.any_some] at hmade
        split at hmade
        · next h =>
          obtain rfl : extra = made := Except.ok.inj hmade
          exact (of_decide_eq_true h).2.2
        · cases hmade
      refine does_bind (does_ran hbegun fun _ _ ↦ ?_)
      dsimp only [act]
      rw [hw.tip_eq]
      dsimp only
      split
      · have hmoved : Before setting start (some tip) made { w.moveHead made with
            folds := w.folds ++ [⟨w.current, tip, made, w.ref .home (premerge setting.unit)⟩] } :=
          (hw.moveHead made).unseen ⟨rfl, rfl, rfl, rfl⟩
        refine ⟨⟨tip, made, _, hfold htip htree, hmoved.toAt⟩, fun _ _ ↦ ?_⟩
        exact does_pure (does_pure ((hnext _).mpr ⟨tip, made, _, hfold htip htree, hmoved⟩))
      · exact ⟨hbegun, fun _ hvalue ↦ (nomatch hvalue)⟩
  · have hsquashing : Squashing setting params start w := ⟨tip, made, record, hfolded, hw⟩
    have hrecord : record = some tip := hfolded.record.trans (if_pos hsquash)
    subst hrecord
    refine does_restoreHead hsquashing (fun hnone ↦ ?_) (fun oid branch hoid hhead hthere ↦ ?_)
      fun oid branch other hoid hhead hother ↦ ?_
    · cases hw.record.symm.trans hnone
    · obtain rfl : tip = oid := Option.some.inj (hw.record.symm.trans hoid)
      obtain rfl : setting.branch = branch := Head.symbolic.inj (hw.head.symm.trans hhead)
      obtain rfl : made = tip := Option.some.inj (hw.branch.symm.trans hthere)
      exact hback w ⟨made, _, hfolded.grounded, .inr rfl, hw⟩
    · obtain rfl : tip = oid := Option.some.inj (hw.record.symm.trans hoid)
      obtain rfl : setting.branch = branch := Head.symbolic.inj (hw.head.symm.trans hhead)
      obtain rfl : made = other := Option.some.inj (hw.branch.symm.trans hother)
      have hput : At setting start (some tip) tip (w.keepHome setting made tip) :=
        hw.keepHome hfolded.tree
      exact ⟨⟨tip, tip, _, hfold hfolded.grounded rfl, hput⟩,
        hback _ ⟨tip, _, hfolded.grounded, .inr rfl, hput⟩⟩

/-- A rebase that is not refused found the tracked files as the branch has them. -/
theorem Before.wasClean {record : Option Oid} {tip : Oid} (h : Before setting start record tip w)
    (hclean : isClean setting w.home tip = true) : WasClean setting start tip := by
  obtain ⟨hindex, hlaid⟩ := of_decide_eq_true hclean
  refine ⟨fun path hpath ↦ ?_, fun path hpath hnone ↦ h.tracked path hpath (hindex ▸ hnone)⟩
  rw [← hindex] at hpath ⊢
  rw [← h.work]
  exact hlaid path (Table.mem_keys_iff.mpr hpath)

/-- What a rebase that runs leaves. -/
theorem rebase_leaves {before after : Oid} {record : Option Oid}
    (hfolded : Folded setting params start before after record)
    (hw : Before setting start record after w) {onto : Oid} (outcome : Outcome)
    (hanswered : answered params.stages.squash (.rebase onto) (.ok outcome) w) :
    Rewriting setting params start (act setting (.rebase onto) outcome w).2 := by
  have hsame : Rewriting setting params start w := ⟨before, after, record, hfolded, .inl hw.toAt⟩
  simp only [act, hw.rebasing, hw.head, hw.tip_eq]
  split
  · next hclean =>
    have hwas := hw.wasClean hclean
    cases outcome with
    | done moved work =>
      dsimp only [World.rebased]
      split
      · next h =>
        have hset := hw.toKept.setBranch moved
        refine ⟨before, after, record, hfolded, .inr (.inr ⟨hanswered,
          ⟨⟨hw.marker, hw.home, hw.source, hset.record⟩, hwas, rfl, rfl,
            moved, World.refs_setRef_self, h.2.1, hw.work ▸ h.2.2⟩⟩)⟩
      · exact hsame
    | stopped tip index work =>
      dsimp only [World.rebased]
      split
      · next h =>
        refine ⟨before, after, record, hfolded, .inr (.inl ?_)⟩
        exact ⟨⟨hw.marker, hw.home, hw.source, hw.record⟩, hwas, ⟨_, rfl, rfl, rfl⟩, hw.work ▸ h⟩
      · exact hsame
  · exact hsame

/-- The branch is put back at the record, where there is one. -/
theorem does_restoreRecord {before after : Oid} {record : Option Oid}
    (hfolded : Folded setting params start before after record)
    (hfresh : start.ref .home (premerge setting.unit) = none)
    (hw : At setting start record after w ∨
      params.stages.squash = true ∧ Moved setting start record after w) :
    Does setting params.stages.squash (Rewriting setting params start)
      (fun _ ↦ Squashing setting params start) (restoreHead setting (premerge setting.unit)) w := by
  have hrewriting : Rewriting setting params start w :=
    ⟨before, after, record, hfolded, hw.imp id .inr⟩
  have hrecord : w.ref .home (premerge setting.unit) = record :=
    hw.elim (fun h ↦ h.record) fun h ↦ h.2.record
  have hhead : w.home.head = .symbolic setting.branch :=
    hw.elim (fun h ↦ h.head) fun h ↦ h.2.head
  have hput {oid : Oid} (hoid : w.ref .home (premerge setting.unit) = some oid) :
      oid = before ∧ Folded setting params start before before record := by
    have hsome := hfolded.record.symm.trans (hrecord.symm.trans hoid)
    split at hsome
    · exact ⟨(Option.some.inj hsome).symm, rfl, hfolded.record, fun _ ↦ rfl, hfolded.grounded⟩
    · cases hfresh.symm.trans hsome
  refine does_restoreHead hrewriting (fun hnone ↦ ?_) (fun oid branch hoid hsymbolic hthere ↦ ?_)
    fun oid branch tip hoid hsymbolic htip ↦ ?_
  · rcases hw with hw | ⟨hsquash, hw⟩
    · exact ⟨before, after, record, hfolded, hw⟩
    · have hsome := hfolded.record.trans (if_pos hsquash)
      cases (hrecord.symm.trans hnone).symm.trans hsome
  · obtain rfl : setting.branch = branch := Head.symbolic.inj (hhead.symm.trans hsymbolic)
    obtain ⟨rfl, hfolded'⟩ := hput hoid
    have hback : At setting start record oid w := by
      rcases hw with hw | ⟨-, hw⟩
      · obtain rfl : after = oid := Option.some.inj (hw.branch.symm.trans hthere)
        exact hw
      · exact hw.at hthere hfolded.tree
    exact ⟨oid, oid, record, hfolded', hback⟩
  · obtain rfl : setting.branch = branch := Head.symbolic.inj (hhead.symm.trans hsymbolic)
    obtain ⟨rfl, hfolded'⟩ := hput hoid
    have hback : At setting start record oid (w.keepHome setting tip oid) := by
      rcases hw with hw | ⟨-, hw⟩
      · obtain rfl : after = tip := Option.some.inj (hw.branch.symm.trans htip)
        exact hw.keepHome hfolded.tree
      · exact hw.keepHome htip hfolded.tree
    exact ⟨⟨oid, oid, record, hfolded', .inl hback⟩, oid, oid, record, hfolded', hback⟩

theorem rebase_sound (hfresh : start.ref .home (premerge setting.unit) = none)
    (hback : ∀ w, Squashing setting params start w → back w)
    (hnext : ∀ w, next w ↔ Rewriting setting params start w) :
    (Rebase setting params.target.oid).Sound setting params.stages.squash
      (Squashed setting params start) (Rewriting setting params start) back next := by
  refine work_sound (fun w ⟨before, after, record, hfolded, h⟩ ↦
    ⟨before, after, record, hfolded, .inl h.toAt⟩) (fun w h ↦ (hnext w).mp h)
    (fun w ⟨before, after, record, hfolded, hw⟩ ↦ ?_) fun w ⟨before, after, record, hfolded, hw⟩ ↦ ?_
  · have hbegun : Rewriting setting params start w := ⟨before, after, record, hfolded, .inl hw.toAt⟩
    refine does_bind (does_bind (does_look hbegun (fun _ ↦ rfl) fun _ _ _ ↦
      does_bind (does_rebasing hbegun ?_)))
    rw [hw.rebasing]
    refine does_bind (does_bind (does_glance hbegun (fun _ ↦ rfl) fun reached ↦ does_pure ?_))
    split
    · exact does_pure (does_pure ((hnext w).mpr hbegun))
    · refine does_runRebase hbegun fun choice hchoice ↦ ?_
      have hafter : Rewriting setting params start
          (perform setting (.rebase params.target.oid) choice w).2 := by
        cases choice with
        | error fault => exact hbegun
        | ok outcome => exact rebase_leaves hfolded hw outcome hchoice
      have hended := (hnext _).mpr hafter
      exact ⟨hafter, fun _ _ ↦ does_pure hended, fun _ ↦ does_pure hended⟩
  · have hrewriting : Rewriting setting params start w := ⟨before, after, record, hfolded, hw⟩
    -- The home is off the rebase, and the branch is put back at the record.
    have hrest (w : World) (h : At setting start record after w ∨
        params.stages.squash = true ∧ Moved setting start record after w) :
        Does setting params.stages.squash (Rewriting setting params start) (fun _ ↦ back)
          (do restoreHead setting (premerge (← markerOf setting))) w := by
      have hkept : Kept setting start record w := h.elim (fun h ↦ h.toKept) fun h ↦ h.2.toKept
      refine does_bind (does_markerOf ⟨before, after, record, hfolded, h.imp id .inr⟩ fun unit hunit ↦ ?_)
      obtain rfl : setting.unit = unit := Option.some.inj (hkept.marker.symm.trans hunit)
      exact (does_restoreRecord hfolded hfresh h).imp fun _ w hsquashing ↦ hback w hsquashing
    refine does_bind (does_abort hrewriting (fun hnone ↦ hrest w ?_) fun rebasing hrebasing ↦ ?_)
    · rcases hw with hw | hw | hw
      · exact .inl hw
      · obtain ⟨rebasing, hsome, _⟩ := hw.rebasing
        cases hnone.symm.trans hsome
      · exact .inr hw
    · rcases hw with hw | hw | ⟨-, hw⟩
      · cases hw.rebasing.symm.trans hrebasing
      · have haborted := hw.aborted hrebasing
        exact ⟨⟨before, after, record, hfolded, .inl haborted⟩, hrest _ (.inl haborted)⟩
      · cases hw.rebasing.symm.trans hrebasing

/-! ### The fast-forward -/

/-- The home sees nothing of what happens to the checkout. -/
theorem Forwarding.unseen {w' : World} (h : Forwarding setting params start w)
    (hw : Unseen setting w w') : Forwarding setting params start w' := by
  unfold Forwarding at h ⊢
  split
  · next hrebase =>
    rw [if_pos hrebase] at h
    obtain ⟨before, after, record, hfolded, h⟩ := h
    refine ⟨before, after, record, hfolded, ?_⟩
    exact h.imp (·.unseen hw) (Or.imp (·.unseen hw) (And.imp_right (·.unseen hw)))
  · next hrebase =>
    rw [if_neg hrebase] at h
    obtain ⟨before, after, record, hfolded, h⟩ := h
    exact ⟨before, after, record, hfolded, h.unseen hw⟩

theorem Forwarding.kept (h : Forwarding setting params start w) :
    ∃ record, Kept setting start record w := by
  unfold Forwarding at h
  split at h
  · obtain ⟨_, _, record, _, h | h | h⟩ := h
    · exact ⟨record, h.toKept⟩
    · exact ⟨record, h.toKept⟩
    · exact ⟨record, h.2.toKept⟩
  · obtain ⟨_, _, record, _, h⟩ := h
    exact ⟨record, h.toKept⟩

/-- The branch merged into is moved, and the home does not see it. -/
theorem does_moveBranch {squash : Bool} (hplanned : Planned setting params start) {why : Why}
    {dest : Oid} (hw : Forwarding setting params start w) :
    Does setting squash (Forwarding setting params start) (fun _ ↦ Forwarding setting params start)
      (moveBranch .source why params.target.branch dest) w := by
  have hmoved : Forwarding setting params start
      (w.moveSource setting why params.target.branch dest) := by
    refine hw.unseen (unseen_moveSource params.target.heads fun hstore ↦ hplanned.apart ?_)
    obtain ⟨record, hkept⟩ := hw.kept
    rw [← hkept.home, ← hkept.source]
    exact hstore
  have hforce : Does setting squash (Forwarding setting params start)
      (fun _ ↦ Forwarding setting params start)
      (ran (.branchForce .source why params.target.branch dest)) w := by
    refine does_ran hw fun _ _ ↦ ?_
    dsimp only [act]
    split
    · exact ⟨hmoved, fun _ _ ↦ hmoved⟩
    · exact ⟨hw, fun _ _ ↦ hw⟩
  refine does_bind (does_bind (does_symbolicRef hw (does_pure hforce) fun branch hhead ↦ does_pure ?_))
  split
  · next heq =>
    obtain rfl : branch = params.target.branch := Option.some.inj (of_decide_eq_true heq)
    have hsource : w.source.head = .symbolic params.target.branch := hhead
    refine does_ran hw fun _ _ ↦ ?_
    dsimp only [act]
    rw [hsource]
    dsimp only
    split
    · exact ⟨hmoved, fun _ _ ↦ hmoved⟩
    · exact ⟨hw, fun _ _ ↦ hw⟩
  · exact hforce

theorem forward_sound {squash : Bool} (hplanned : Planned setting params start)
    (hbefore : ∀ w, before w → Forwarding setting params start w)
    (hback : ∀ w, Forwarding setting params start w → back w) :
    (Forward setting params.target).Sound setting squash before (Forwarding setting params start) back
      (Forwarding setting params start) := by
  refine work_sound hbefore (fun _ h ↦ h) (fun w h ↦ ?_) fun w hw ↦ ?_
  · have hw := hbefore w h
    refine does_bind (does_isRebasing hw ?_)
    split
    · exact does_pure hw
    · refine does_bind (does_look hw (fun _ ↦ rfl) fun _ tip _ ↦ ?_)
      refine does_bind (does_look hw (fun _ ↦ rfl) fun _ _ _ ↦ does_bind (does_bind ?_))
      refine does_readRef hw ?_
      split
      · exact does_throw
      · next found _ =>
        split
        · exact does_pure (does_pure hw)
        · refine does_bind (does_bind (does_glance hw (fun _ ↦ rfl) fun reached ↦ does_pure ?_))
          split
          · exact does_throw
          · refine does_bind ((does_moveBranch hplanned hw).imp fun _ w hmoved ↦ ?_)
            exact does_pure (does_pure hmoved)
  · refine does_bind (does_readRef hw ?_)
    split
    · exact does_pure (hback w hw)
    · exact (does_moveBranch hplanned hw).imp fun _ w hmoved ↦ hback w hmoved

end Steps

end Nodal.Merge
