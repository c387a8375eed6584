import Nodal.Merge.Sheltered

/-!
# What a squash folds away

A merge writes the branch to the unit's premerge ref before it squashes it, and leaves a ref that is
there as it is. The home is kept after a merge, and the ref with it, so a later merge finds the record
of an earlier one: it does not record what it is about to fold, and when it is undone it deletes what
the earlier one recorded. While no merge does either, nothing is squashed before it is recorded, and
nothing recorded is lost (`squashed_recorded`).
-/

set_option autoImplicit false

namespace Nodal.Merge

open Git Foundation Foundation.Attempt Lifecycle Lifecycle.TakenBack Plumbing

/-! ### What a merge is going to fold -/

section Conditions

variable (setting : Setting)

/-- Whether the commit stage has something to commit. -/
def commits (params : Params) (w : World) : Bool :=
  params.stages.commit && staged setting w.home.index w.home.work ≠ setting.tree params.head

/-- Whether a branch has fewer than two commits since its merge base with another. -/
def isSlight (onto tip : Oid) : Bool :=
  setting.commits.all fun base ↦
    !setting.isMergeBase onto tip base || (setting.range base tip).length < 2

/-- Whether a merge finds nothing recorded, or all it is going to fold, or nothing to fold. -/
def isRecordable (params : Params) (w : World) : Bool :=
  w.ref .home (premerge setting.unit) = none ||
    if commits setting params w then setting.isAncestor params.head params.target.oid
    else (w.ref .home (premerge setting.unit)).any (setting.isAncestor params.head ·) ||
      isSlight setting params.target.oid params.head

end Conditions

/-! ### What stands before the steps that record and squash -/

section Stages

variable {setting : Setting} {w w' : World} {params : Params} {tip made onto : Oid}

/-- The premerge ref reaches everything a commit does. -/
def Covers (setting : Setting) (w : World) (tip : Oid) : Prop :=
  ∃ record, w.ref .home (premerge setting.unit) = some record ∧
    ∀ commit ∈ setting.reach tip, commit ∈ setting.reach record

/-- Before the branch is touched: where the merge squashes, the home is on its branch, and what it is
going to fold can be recorded. -/
structure Begun (setting : Setting) (params : Params) (w : World) : Prop where
  sheltered : Sheltered setting w
  head : w.home.head = .symbolic setting.branch
  branch : w.ref .home setting.branch = some params.head
  recordable : isRecordable setting params w = true

/-- Before the record: there is none, or it has what `HEAD` reaches, or there is nothing to fold. -/
structure Ready (setting : Setting) (onto : Oid) (w : World) : Prop where
  sheltered : Sheltered setting w
  ready : ∀ tip, w.tip = some tip → w.ref .home (premerge setting.unit) = none ∨
    Covers setting w tip ∨ isSlight setting onto tip = true

/-- Before the squash: the record has what `HEAD` reaches, or there is nothing to fold. -/
structure Noted (setting : Setting) (onto : Oid) (w : World) : Prop where
  sheltered : Sheltered setting w
  noted : ∀ tip, w.tip = some tip → Covers setting w tip ∨ isSlight setting onto tip = true

theorem Begun.unseen (h : Begun setting params w) (hw : Unseen setting w w')
    (hsheltered : Sheltered setting w') : Begun setting params w' where
  sheltered := hsheltered
  head := hw.home ▸ h.head
  branch := hw.branch.trans h.branch
  recordable := by
    have hrecordable := h.recordable
    unfold isRecordable commits at hrecordable ⊢
    rw [hw.record, hw.home]
    exact hrecordable

theorem Begun.tip_eq (h : Begun setting params w) : w.tip = some params.head := by
  rw [World.tip, h.head]
  exact h.branch

/-- What reaches the commits of a branch of one commit is that commit, or what it is made on. -/
theorem eq_or_mem_reach {commit : Oid} (hparents : setting.parents made = [tip])
    (h : commit ∈ setting.reach made) : commit = made ∨ commit ∈ setting.reach tip := by
  obtain ⟨-, hreaches⟩ := History.mem_reach_iff.mp h
  rcases Relation.ReflTransGen.cases_head hreaches with heq | ⟨parent, ⟨hparent, hstored⟩, hrest⟩
  · exact .inl heq.symm
  · rw [hparents, List.mem_singleton] at hparent
    subst hparent
    exact .inr (History.mem_reach_iff.mpr ⟨hstored, hrest⟩)

/-- One commit on what the target reaches is one commit to fold at most. -/
theorem isSlight_of_made (hparents : setting.parents made = [tip]) (htip : tip ∈ setting.reach onto) :
    isSlight setting onto made = true := by
  refine List.all_eq_true.mpr fun base _ ↦ ?_
  rw [Bool.or_eq_true, Bool.not_eq_true', decide_eq_true_iff, ← Bool.not_eq_true]
  refine or_iff_not_imp_left.mpr fun hbase ↦ ?_
  obtain ⟨honto, hmade, hbest⟩ : base ∈ setting.reach onto ∧ base ∈ setting.reach made ∧
      ∀ commit ∈ setting.reach onto, commit ∈ setting.reach made →
        base ∈ setting.reach commit → commit = base := of_decide_eq_true (not_not.mp hbase)
  have honly : ∀ commit ∈ setting.range base made, commit = made := by
    intro commit hcommit
    obtain ⟨hreach, hnot⟩ := History.mem_range_iff.mp hcommit
    refine (eq_or_mem_reach hparents hreach).resolve_right fun hbelow ↦ hnot ?_
    rcases eq_or_mem_reach hparents hmade with rfl | hbelowBase
    · exact hreach
    · have hmadeTip : tip ∈ setting.reach made :=
        History.mem_reach_parent (History.mem_reach_iff.mp hmade).1 (hparents ▸ List.mem_singleton_self tip)
      exact hbest tip htip hmadeTip hbelowBase ▸ hbelow
  have hsubset : setting.range base made ⊆ [made] := fun commit hcommit ↦
    List.mem_singleton.mpr (honly commit hcommit)
  have hlength := (List.subperm_of_subset (Ancestry.outside_nodup setting.ordered) hsubset).length_le
  exact Nat.lt_succ_of_le hlength

/-- Where the commit stage makes nothing, what can be recorded is ready to be. -/
theorem Begun.ready (h : Begun setting params w) (hnothing : commits setting params w = false) {w' : World}
    (hsheltered : Sheltered setting w') (htip : w'.tip = w.tip)
    (hrecord : w'.ref .home (premerge setting.unit) = w.ref .home (premerge setting.unit)) :
    Ready setting params.target.oid w' := by
  refine ⟨hsheltered, fun tip heq ↦ ?_⟩
  obtain rfl : params.head = tip := Option.some.inj ((htip.trans h.tip_eq).symm.trans heq)
  have hrecordable := h.recordable
  simp only [isRecordable, hnothing, Bool.or_eq_true, decide_eq_true_eq] at hrecordable
  rw [hrecord]
  refine hrecordable.imp_right fun hcovered ↦ ?_
  rw [if_neg Bool.false_ne_true, Bool.or_eq_true] at hcovered
  refine hcovered.imp_left fun hcovers ↦ ?_
  obtain ⟨record, href, hancestor⟩ := (Option.any_eq_true _ _).mp hcovers
  exact ⟨record, hrecord.trans href, fun commit hcommit ↦
    History.reach_trans (of_decide_eq_true hancestor) hcommit⟩

/-- Where the commit stage makes a commit, there is no record, or that commit is all there is to
fold. -/
theorem Begun.ready_made (h : Begun setting params w) (hcommits : commits setting params w = true)
    {w' : World} (hsheltered : Sheltered setting w') (htip : w'.tip = some made)
    (hparents : setting.parents made = [params.head])
    (hrecord : w'.ref .home (premerge setting.unit) = w.ref .home (premerge setting.unit)) :
    Ready setting params.target.oid w' := by
  refine ⟨hsheltered, fun tip heq ↦ ?_⟩
  obtain rfl : made = tip := Option.some.inj (htip.symm.trans heq)
  have hrecordable := h.recordable
  simp only [isRecordable, hcommits, Bool.or_eq_true, decide_eq_true_eq, if_true] at hrecordable
  rw [hrecord]
  exact hrecordable.imp_right fun hancestor ↦
    .inr (isSlight_of_made hparents (of_decide_eq_true hancestor))

end Stages

/-! ### The steps that record and squash -/

section Steps

variable {setting : Setting} {w w' : World} {params : Params} {onto : Oid}

/-- A script that is judged where nobody else acts on the home. -/
abbrev Shelters (setting : Setting) {β : Type} (X : β → World → Prop) (x : Script β) (w : World) : Prop :=
  DoesUnder setting (honest setting) (Sheltered setting) X x w

theorem shelters_fetchTarget (hw : Begun setting params w) :
    Shelters setting (fun _ ↦ Begun setting params)
      (FetchTarget setting params.target (target setting.unit)).apply w := by
  refine does_bind (does_bind (does_ran hw.sheltered fun extra _ ↦ ?_))
  dsimp only [act]
  split
  · exact ⟨hw.sheltered, fun _ hvalue ↦ (nomatch hvalue)⟩
  · next oid _ =>
    have hset : Sheltered setting (w.setRef w.home.store (target setting.unit) (some oid)) :=
      hw.sheltered.setRef (.inl not_lasting_target)
    have hfetched : Begun setting params (w.setRef w.home.store (target setting.unit) (some oid)) :=
      hw.unseen (unseen_setRef _ (branch_ne (startsWith_target _)) (premerge_ne_target _)) hset
    refine ⟨hset, fun _ _ ↦ does_bind (does_glance hset (fun extra ↦ ?_) fun answer ↦ ?_)⟩
    · dsimp only [act]
      split <;> rfl
    · cases answer with
      | none => exact does_throw
      | some found =>
        refine does_pure ?_
        split
        · exact does_pure hfetched
        · exact does_throw

/-- The index of a home, taken from its files, is committed. -/
theorem shelters_commit (hw : Begun setting params w) (hcommit : params.stages.commit = true)
    (hadded : Sheltered setting w') (hhead : w'.home.head = .symbolic setting.branch)
    (htip : w'.tip = some params.head)
    (hrecord : w'.ref .home (premerge setting.unit) = w.ref .home (premerge setting.unit))
    (hindex : w'.home.index = staged setting w.home.index w.home.work) :
    Shelters setting (fun _ ↦ Ready setting params.target.oid) (ran .commit) w' := by
  refine does_ran hadded fun made _ ↦ ?_
  dsimp only [act]
  rw [htip, Option.any_some]
  split
  · next hmade =>
    obtain ⟨-, hparents, -, hne⟩ := of_decide_eq_true hmade
    have hmoved : Sheltered setting (w'.moveHead made) := hadded.moveHead
    refine ⟨hmoved, fun _ _ ↦ hw.ready_made ?_ hmoved ?_ hparents ?_⟩
    · rw [hindex] at hne
      simp [commits, hcommit, hne]
    · rw [moveHead_of_symbolic hhead, World.tip]
      simp only [World.setRef_home, hhead]
      exact World.refs_setRef_self
    · rw [moveHead_of_symbolic hhead]
      exact (World.refs_setRef_of_ne (.inr (branch_ne (startsWith_premerge _)).symm)).trans hrecord
  · exact ⟨hadded, fun _ hvalue ↦ by cases hvalue⟩

theorem shelters_commitWork (hw : Begun setting params w) (hcommit : params.stages.commit = true) :
    Shelters setting (fun _ ↦ Ready setting params.target.oid) (CommitWork params.head).apply w := by
  refine does_bind (does_bind (does_ran hw.sheltered fun _ _ ↦ ?_))
  dsimp only [act]
  have hadded : Sheltered setting { w with
      home := { w.home with index := staged setting w.home.index w.home.work } } :=
    hw.sheltered.with_trees _ _
  have htip : World.tip { w with home := { w.home with
      index := staged setting w.home.index w.home.work } } = some params.head := hw.tip_eq
  have hready := shelters_commit hw hcommit hadded hw.head htip rfl rfl
  refine ⟨hadded, fun _ _ ↦ does_bind ?_⟩
  -- Whatever makes the answer a difference, the commit is the one that finds out.
  have hdiffers : Shelters setting (fun _ ↦ Ready setting params.target.oid) (do
      identity
      ran .commit
      return some (← ran .revParseHead)) { w with
        home := { w.home with index := staged setting w.home.index w.home.work } } := by
    refine does_bind (does_identity hadded (does_bind (hready.mono fun _ w' h value hvalue ↦ ?_)))
    have hmade := h value hvalue
    exact does_bind (does_look hmade.sheltered (fun _ ↦ rfl) fun _ _ _ ↦ does_pure hmade)
  have hcommitted := hdiffers.mono fun _ w' h value hvalue ↦
    (does_pure (h value hvalue) : Shelters setting (fun _ ↦ Ready setting params.target.oid)
      (pure nothing) w')
  refine does_asked hadded (fun _ _ ↦ hcommitted) fun _ _ ↦
    ⟨hadded, fun value hsame ↦ ?_, fun _ _ ↦ hcommitted⟩
  refine does_pure (does_pure (hw.ready ?_ hadded rfl rfl))
  simp only [act, htip, Option.any_some] at hsame
  split at hsame
  · next heq => simp [commits, of_decide_eq_true heq]
  · cases hsame

theorem shelters_recordPremerge (hw : Ready setting onto w) :
    Shelters setting (fun _ ↦ Noted setting onto)
      (RecordPremerge (premerge setting.unit)).apply w := by
  have hwritten (hnone : w.ref .home (premerge setting.unit) = none) :
      Shelters setting (fun _ ↦ Noted setting onto) (do
        let head ← ran .revParseHead
        ran (.updateRef (premerge setting.unit) head)
        return nothing) w := by
    refine does_bind (does_look hw.sheltered (fun _ ↦ rfl) fun _ head hhead ↦ ?_)
    have htip : w.tip = some head := by
      cases htip : w.tip with
      | none =>
        simp only [act, htip, Option.elim_none] at hhead
        cases hhead
      | some tip =>
        simp only [act, htip, Option.elim_some] at hhead
        exact congrArg some (Except.ok.inj hhead)
    have hset : Sheltered setting (w.setRef w.home.store (premerge setting.unit) (some head)) :=
      hw.sheltered.setRef (.inr hnone)
    refine does_bind (does_ran hw.sheltered fun _ _ ↦ ⟨hset, fun _ _ ↦ does_pure ⟨hset, ?_⟩⟩)
    intro tip htip'
    have hsame : World.tip (w.setRef w.home.store (premerge setting.unit) (some head)) = w.tip := by
      unfold World.tip
      simp only [World.setRef_home]
      split
      · next name hname =>
        refine World.refs_setRef_of_ne (.inr ?_)
        rintro rfl
        have hheads := hw.sheltered.head _ hname
        rw [startsWith_premerge] at hheads
        cases hheads
      · rfl
    obtain rfl : head = tip := Option.some.inj ((hsame.trans htip).symm.trans htip')
    exact .inl ⟨head, World.refs_setRef_self, fun _ hcommit ↦ hcommit⟩
  refine does_bind (does_asked hw.sheltered (fun _ hhonest ↦ hwritten (hhonest rfl)) fun extra _ ↦ ?_)
  dsimp only [act]
  split
  · next hnone =>
    exact ⟨hw.sheltered, fun _ hvalue ↦ (by cases hvalue), fun _ _ ↦ hwritten hnone⟩
  · next oid hsome =>
    refine ⟨hw.sheltered, fun _ _ ↦ does_pure ⟨hw.sheltered, fun tip htip ↦ ?_⟩, fun _ hvalue ↦
      by cases hvalue⟩
    exact (hw.ready tip htip).resolve_left fun hnone ↦ by cases hnone.symm.trans hsome

theorem shelters_squash (hw : Noted setting onto w) :
    Shelters setting (fun _ ↦ Sheltered setting)
      (Squash setting onto (premerge setting.unit)).apply w := by
  have hsheltered := hw.sheltered
  refine does_bind (does_bind (does_look hsheltered (fun _ ↦ rfl) fun chosen base hbase ↦ ?_))
  refine does_bind (does_look hsheltered (fun _ ↦ rfl) fun _ count hcount ↦ ?_)
  split
  · exact does_pure (does_pure hsheltered)
  · next hmany =>
    refine does_bind (does_identity hsheltered (does_bind (does_look hsheltered (fun _ ↦ rfl)
      fun _ made _ ↦ does_bind (does_ran hsheltered fun _ _ ↦ ?_))))
    dsimp only [act] at hbase hcount ⊢
    cases htip : w.tip with
    | none => exact ⟨hsheltered, fun _ hvalue ↦ (nomatch hvalue)⟩
    | some tip =>
      dsimp only
      split
      · have hcovers : Covers setting w tip := by
          refine (hw.noted tip htip).resolve_right fun hslight ↦ hmany ?_
          rw [htip, Option.any_some] at hbase
          rw [htip, Option.elim_some] at hcount
          obtain rfl := Except.ok.inj hcount
          split at hbase
          · next hmerge =>
            obtain rfl : chosen = base := Except.ok.inj hbase
            have hstored : chosen ∈ setting.commits :=
              History.mem_commits_of_mem_reach (of_decide_eq_true hmerge).1
            have hfew := List.all_eq_true.mp hslight chosen hstored
            rw [hmerge, Bool.not_true, Bool.false_or] at hfew
            exact of_decide_eq_true hfew
          · cases hbase
        have hfolded : Sheltered setting { w.moveHead made with
            folds := w.folds ++ [⟨w.current, tip, made, w.ref .home (premerge setting.unit)⟩] } :=
          hsheltered.folded hcovers
        exact ⟨hfolded, fun _ _ ↦ does_pure (does_pure hfolded)⟩
      · exact ⟨hsheltered, fun _ hvalue ↦ (nomatch hvalue)⟩

end Steps

/-! ### The plan of a merge -/

section Links

variable (setting : Setting) (params : Params) {w : World}

/-- Before the branch is touched: a merge that is going to squash may record what it folds. -/
structure Entered (w : World) : Prop where
  sheltered : Sheltered setting w
  begun : params.resuming = false → params.stages.squash = true → Begun setting params w

/-- Before the record, where there is a squash, or before what follows. -/
def Pending (w : World) : Prop :=
  if params.stages.squash then Ready setting params.target.oid w else Sheltered setting w

/-- The steps after the squash. -/
def lastLinks : List (Link Command World Command.Answer) :=
  (if params.stages.rebase then
    [(Rebase setting params.target.oid).link (Sheltered setting) (Sheltered setting)]
  else []) ++ [(Forward setting params.target).link (Sheltered setting) (Sheltered setting)]

/-- The steps from the record on. -/
def recordLinks : List (Link Command World Command.Answer) :=
  (if params.stages.squash then
    [(RecordPremerge (premerge setting.unit)).link (Ready setting params.target.oid)
        (Sheltered setting),
      (Squash setting params.target.oid (premerge setting.unit)).link
        (Noted setting params.target.oid) (Sheltered setting)]
  else []) ++ lastLinks setting params

/-- The steps after the fetch. -/
def laterLinks : List (Link Command World Command.Answer) :=
  if params.resuming then lastLinks setting params
  else (if params.stages.commit then
    [(CommitWork params.head).link (Entered setting params) (Sheltered setting)]
  else []) ++ recordLinks setting params

/-- The steps of a merge, with what stands before each. -/
def stagedLinks : List (Link Command World Command.Answer) :=
  (FetchTarget setting params.target (target setting.unit)).link (Entered setting params)
    (Sheltered setting) :: laterLinks setting params

variable {setting params}

/-- Links that begin where `before` holds, and each lead to the next. -/
def ChainedFrom (setting : Setting) (before : World → Prop)
    (links : List (Link Command World Command.Answer)) : Prop :=
  (∀ w, before w → standing (Sheltered setting) links w) ∧
    Chained (performance setting) (honest setting) (Sheltered setting) (Sheltered setting) links

/-- A step that keeps the contract wherever it is applied leaves the invariant. -/
theorem Heeds.shelters {β : Type} {x : Script β} (h : Heeds setting (sheltering setting) x)
    (hw : Sheltered setting w) : Shelters setting (fun _ ↦ Sheltered setting) x w :=
  ((h.does w).widen hw fun _ h ↦ h).mono fun _ _ h _ _ ↦ h.1

theorem chainedFrom_last :
    ChainedFrom setting (Sheltered setting) (lastLinks setting params) := by
  have hK : Lenient (sheltering setting) := lenient_sheltering
  have hforward : Heeds setting (sheltering setting) (Forward setting params.target).apply :=
    heeds_forward hK fun _ _ _ ↦ ⟨allows_resetKeep, allows_branchForce params.target.heads⟩
  have hrestore : Heeds setting (sheltering setting) (Forward setting params.target).undo :=
    heeds_restore hK allows_resetKeep (allows_branchForce params.target.heads)
  have hlast : Chained (performance setting) (honest setting) (Sheltered setting) (Sheltered setting)
      [(Forward setting params.target).link (Sheltered setting) (Sheltered setting)] :=
    ⟨fun w hw ↦ hforward.shelters hw, fun w ↦ (hrestore.does w).mono fun _ _ _ ↦ trivial, trivial⟩
  have hrebase : Heeds setting (sheltering setting) (Rebase setting params.target.oid).apply :=
    heeds_bind (heeds_rebase hK) fun _ ↦ honours_pure trivial
  have hback : Heeds setting (sheltering setting) (Rebase setting params.target.oid).undo :=
    heeds_bind (heeds_abort hK) fun _ ↦ heeds_bind (heeds_markerOf hK) fun _ ↦
      heeds_restoreHead_sheltering
  unfold lastLinks
  split
  · exact ⟨fun _ hw ↦ hw, fun w hw ↦ hrebase.shelters hw,
      fun w ↦ (hback.does w).mono fun _ _ _ ↦ trivial, hlast⟩
  · exact ⟨fun _ hw ↦ hw, hlast⟩

theorem chainedFrom_record :
    ChainedFrom setting (Pending setting params) (recordLinks setting params) := by
  obtain ⟨hbegins, hlast⟩ : ChainedFrom setting (Sheltered setting) (lastLinks setting params) :=
    chainedFrom_last
  unfold recordLinks Pending
  by_cases hsquash : params.stages.squash = true
  · simp only [hsquash, if_true]
    have hforget : Heeds setting (sheltering setting)
        (RecordPremerge (premerge setting.unit)).undo :=
      heeds_deleteRef (allows_deleteRef (.inr rfl))
    have hput : Heeds setting (sheltering setting)
        (Squash setting params.target.oid (premerge setting.unit)).undo := heeds_restoreHead_sheltering
    refine ⟨fun _ hw ↦ hw, fun w hw ↦ shelters_recordPremerge hw,
      fun w ↦ (hforget.does w).mono fun _ _ _ ↦ trivial, fun w hw ↦ ?_,
      fun w ↦ (hput.does w).mono fun _ _ _ ↦ trivial, hlast⟩
    exact (shelters_squash hw).mono fun _ w' h output houtput ↦ hbegins w' (h output houtput)
  · simp only [hsquash]
    exact ⟨hbegins, hlast⟩

theorem chainedFrom_later : ChainedFrom setting (Entered setting params)
    (laterLinks setting params) := by
  obtain ⟨hbegins, hlast⟩ : ChainedFrom setting (Sheltered setting) (lastLinks setting params) :=
    chainedFrom_last
  obtain ⟨hready, hrecord⟩ :
      ChainedFrom setting (Pending setting params) (recordLinks setting params) := chainedFrom_record
  unfold laterLinks
  by_cases hresuming : params.resuming = true
  · rw [if_pos hresuming]
    exact ⟨fun w hw ↦ hbegins w hw.sheltered, hlast⟩
  rw [if_neg hresuming]
  have hbegun {w : World} (hw : Entered setting params w) (hsquash : params.stages.squash = true) :
      Begun setting params w := hw.begun (Bool.not_eq_true _ |>.mp hresuming) hsquash
  by_cases hcommit : params.stages.commit = true
  · rw [if_pos hcommit]
    have hundo : Heeds setting (sheltering setting) (CommitWork params.head).undo :=
      heeds_uncommit lenient_sheltering
    refine ⟨fun _ hw ↦ hw, fun w hw ↦ ?_, fun w ↦ (hundo.does w).mono fun _ _ _ ↦ trivial, hrecord⟩
    by_cases hsquash : params.stages.squash = true
    · refine (shelters_commitWork (hbegun hw hsquash) hcommit).mono fun _ w' h output houtput ↦ ?_
      refine hready w' ?_
      rw [Pending, if_pos hsquash]
      exact h output houtput
    · have happly : Heeds setting (sheltering setting) (CommitWork params.head).apply :=
        heeds_bind (heeds_commitAll lenient_sheltering) fun _ ↦ honours_pure trivial
      refine (happly.shelters hw.sheltered).mono fun _ w' h output houtput ↦ hready w' ?_
      rw [Pending, if_neg hsquash]
      exact h output houtput
  · rw [if_neg hcommit]
    refine ⟨fun w hw ↦ hready w ?_, hrecord⟩
    unfold Pending
    split
    · next hsquash =>
      have hnothing : commits setting params w = false := by simp [commits, hcommit]
      exact (hbegun hw hsquash).ready hnothing hw.sheltered rfl rfl
    · exact hw.sheltered

/-- The steps of a merge. -/
theorem chained_links : Chained (performance setting) (honest setting) (Sheltered setting)
    (Sheltered setting) (stagedLinks setting params) := by
  obtain ⟨hbegins, hlater⟩ : ChainedFrom setting (Entered setting params) (laterLinks setting params) :=
    chainedFrom_later
  have hundo : Heeds setting (sheltering setting)
      (FetchTarget setting params.target (target setting.unit)).undo :=
    heeds_deleteRef (allows_deleteRef (.inl rfl))
  have happly : Heeds setting (sheltering setting)
      (FetchTarget setting params.target (target setting.unit)).apply := by
    refine heeds_bind (heeds_fetchBranch lenient_sheltering allows_fetchBranch) fun found ↦ ?_
    split
    · exact honours_pure trivial
    · exact honours_throw
  refine ⟨fun w hw ↦ ?_, fun w ↦ (hundo.does w).mono fun _ _ _ ↦ trivial, hlater⟩
  by_cases hrecords : params.resuming = false ∧ params.stages.squash = true
  · have hbegun := hw.begun hrecords.1 hrecords.2
    refine (shelters_fetchTarget hbegun).mono fun _ w' h output houtput ↦ hbegins w' ?_
    exact ⟨(h output houtput).sheltered, fun _ _ ↦ h output houtput⟩
  · refine (happly.shelters hw.sheltered).mono fun _ w' h output houtput ↦ hbegins w' ?_
    exact ⟨h output houtput, fun hresuming hsquash ↦ absurd ⟨hresuming, hsquash⟩ hrecords⟩

/-- The links are the steps of the plan. -/
theorem stagedLinks_works (setting : Setting) (params : Params) :
    (stagedLinks setting params).map (fun link ↦ (link.apply, link.undo)) =
      (works setting params).map fun work ↦ (work.apply.run, work.undo.run) := by
  unfold stagedLinks laterLinks recordLinks lastLinks works rewriting
  cases params.resuming <;> cases params.stages.commit <;> cases params.stages.squash <;>
    cases params.stages.rebase <;> rfl

/-- The snapshot of the home is on a ref nothing was at. -/
theorem shelters_snapshot {id : OperationId} (hw : Entered setting params w) :
    Shelters setting (fun _ ↦ Entered setting params) (snapshot setting id) w := by
  refine does_bind (does_call fun choice _ ↦ ?_)
  have hlooked : (perform setting .gitDir choice w).2 = w := by
    cases choice <;> rfl
  rw [hlooked]
  refine ⟨hw.sheltered, ?_⟩
  split
  · exact does_pure hw
  · refine does_ran hw.sheltered fun made _ ↦ ?_
    dsimp only [act]
    split
    · exact ⟨hw.sheltered, fun _ _ ↦ hw⟩
    · split
      · next tip _ htaken =>
        have hset : Sheltered setting (w.setRef w.home.store (pre setting.unit (toString id))
            (some made)) := hw.sheltered.setRef (.inr htaken.2.2.1)
        refine ⟨hset, fun _ _ ↦ ⟨hset, fun hresuming hsquash ↦ ?_⟩⟩
        exact (hw.begun hresuming hsquash).unseen
          (unseen_setRef _ (branch_ne (startsWith_pre _ _)) (premerge_ne_pre _ _)) hset
      · exact ⟨hw.sheltered, fun _ hvalue ↦ (nomatch hvalue)⟩

/-- The steps of a merge keep every record. -/
theorem merge_staged (id : OperationId) : Staged (performance setting) (honest setting)
    (deeds setting id params) (plan setting params).steps.length (Sheltered setting)
    fun k ↦ standing (Sheltered setting) ((stagedLinks setting params).drop k) := by
  have hworks := stagedLinks_works setting params
  have hlength : (plan setting params).steps.length = (stagedLinks setting params).length := by
    have hmap := congrArg List.length hworks
    simpa [plan] using hmap.symm
  rw [hlength]
  have hget (k : ℕ) := congrArg (·[k]?) hworks
  simp only [List.getElem?_map] at hget
  refine chained_links.staged (fun k link hk ↦ ?_) (fun k hk ↦ ?_) (fun w hw ↦ ?_)
    fun _ _ w output w' hw hregister ↦ ?_
  · have hk' := hget k
    rw [hk] at hk'
    cases hwork : (works setting params)[k]? with
    | none => simp [hwork] at hk'
    | some work =>
      simp only [hwork, Option.map_some, Option.some.injEq, Prod.mk.injEq] at hk'
      simp only [deeds, hwork, Option.elim_some]
      exact ⟨hk'.1.symm, hk'.2.symm⟩
  · have hk' := hget k
    rw [hk, Option.map_none] at hk'
    have hnone : (works setting params)[k]? = none := Option.map_eq_none_iff.mp hk'.symm
    exact ⟨"no such step", by simp only [deeds, hnone, Option.elim_none]; rfl⟩
  · exact shelters_snapshot hw
  · obtain ⟨-, rfl⟩ := Prod.mk.inj (Except.ok.inj hregister)
    exact hw

end Links

/-! ### Runs -/

section Runs

variable (setting : Setting)

/-- A merge that squashes begins where it may record what it folds, and what the outside answers is
`honest`. -/
def Recordable (c : Stage) : Happening → Prop
  | .enter _ (.merge _ params) => params.resuming = false → params.stages.squash = true →
      isRecordable setting params c.world.outside = true
  | .act process choice => ∀ command rest,
      c.running process = some (.perform (.outside command) rest) →
        honest setting command (choice (.outside command)) c.world.outside
  | _ => True

/-- Nobody is alive, no squash was made yet, and `HEAD` of either repository is on a branch or on no
ref. -/
structure Unfolded (c : Stage) : Prop where
  idle : Idle c
  folds : c.world.outside.folds = []
  head : ∀ name, c.world.outside.home.head = .symbolic name → startsWith HEADS name = true
  rebasing : ∀ rebasing, c.world.outside.home.rebasing = some rebasing →
    startsWith HEADS rebasing.branch = true
  source : ∀ name, c.world.outside.source.head = .symbolic name → startsWith HEADS name = true

variable {setting} {process : Process} {job : Job}

/-- What an entering process writes down is not among what is kept. -/
theorem Sheltered.entered {w w' : Performed World} (hw : Sheltered setting w.outside)
    (h : enter setting process job w = some w') : Sheltered setting w'.outside := by
  have hnoted : ∀ current plans, Sheltered setting { w.outside with current, plans } :=
    fun _ _ ↦ ⟨hw.head, hw.rebasing, hw.source, hw.recorded, hw.kept⟩
  unfold enter at h
  split at h
  · cases job with
    | merge id params | rollBack id params =>
      dsimp only at h
      split at h
      · exact Option.some.inj h ▸ hnoted _ _
      · cases h
    | abort id => exact Option.some.inj h ▸ hnoted _ _
    | work | advance => exact Option.some.inj h ▸ hw
  · cases h

/-- A merge that enters where it may record what it folds. -/
theorem entered_of_enter {w w' : Performed World} {id : OperationId} {params : Params}
    (hw : Sheltered setting w.outside) (h : enter setting process (.merge id params) w = some w')
    (hrecordable : params.resuming = false → params.stages.squash = true →
      isRecordable setting params w.outside = true) : Entered setting params w'.outside := by
  have hsheltered := hw.entered h
  refine ⟨hsheltered, fun hresuming hsquash ↦ ?_⟩
  unfold enter at h
  split at h
  · dsimp only at h
    split at h
    · next hprepared =>
      have hprepared := hprepared.2.2
      simp only [prepared, hresuming, Bool.and_eq_true, decide_eq_true_eq] at hprepared
      obtain ⟨⟨⟨⟨-, hrebasing⟩, hbranch⟩, hhead⟩, -⟩ := hprepared
      have hnone : w.outside.home.rebasing = none := by simpa using hrebasing.symm
      rw [hnone] at hbranch
      have hbegun : Begun setting params w.outside :=
        ⟨hw, of_decide_eq_true hbranch, hhead, hrecordable hresuming hsquash⟩
      obtain rfl := Option.some.inj h
      exact hbegun.unseen ⟨rfl, rfl, rfl, rfl⟩ hsheltered
    · cases h
  · cases h

/-- Everybody who enters keeps every record. -/
theorem safe_programOf_sheltering {w : Performed World} (hmerge : ∀ id params,
    job = .merge id params → Entered setting params w.outside) :
    Safe (machine setting) (harmless (machine setting) (honest setting) (Sheltered setting)) process
      (fun _ _ ↦ True) (programOf setting job) w := by
  have hK : Lenient (sheltering setting) := lenient_sheltering
  have hscript {β : Type} {x : Script β} (hx : Heeds setting (sheltering setting) x) :
      Safe (machine setting) (harmless (machine setting) (honest setting) (Sheltered setting)) process
        (fun _ _ ↦ True) (succeeds (outside x.run)) w :=
    safe_map ((safe_outside_harmless rfl (hx.does _)).mono fun _ _ _ ↦ trivial)
  cases job with
  | merge id params =>
    exact safe_map (safe_run_staged rfl rfl (merge_staged id) (hmerge id params rfl))
  | rollBack id params => exact safe_map (safe_rollBack_staged rfl (merge_staged id))
  | abort id => exact hscript heeds_abortMerge_sheltering
  | work | advance => exact hscript (heeds_call (hK _ rfl))

theorem sound_sheltering :
    Sound (machine setting) (harmless (machine setting) (honest setting) (Sheltered setting))
      (fun _ _ _ ↦ True) (fun c label ↦ Alone c label ∧ Recordable setting c label) := by
  refine sound_keeping (fun h ↦ h.1) (fun {c i choice act rest} h hrunning ↦ ?_)
    (fun {c i job world} h _ hworld hinv ↦ ?_) fun _ _ hinv ↦ hinv
  · cases act with
    | journal effect => trivial
    | outside command => exact h.2 command rest hrunning
  · have hworld : enter setting i job c.world = some world := hworld
    refine ⟨Sheltered.entered hinv hworld, safe_programOf_sheltering fun id params hjob ↦ ?_⟩
    subst hjob
    exact entered_of_enter hinv hworld h.2

/-- Nothing is squashed before it is recorded, and no record is lost, as long as no merge finds the
record of an earlier one: whatever merges finished, stopped, were aborted or were rolled back, every
commit that a squash folded was reached by the premerge ref at that moment, and until the merge is
undone a ref of the home reaches it.

Assumes: one process at a time; a merge that squashes finds no premerge ref, or one that has all it is
going to fold, or fewer than two commits to fold; where an undo or an abort deletes the ref, what other
merges folded is reached from a ref that stays; and a premerge ref that is there is found. -/
theorem squashed_recorded {c c' : Stage} {labels : List Happening} (hc : Unfolded c)
    (halong : (machine setting).Along (fun c label ↦ Alone c label ∧ Recordable setting c label) c
      labels) (hexec : (machine setting).exec c labels = some c') :
    ∀ fold ∈ c'.world.outside.folds, fold.Recorded setting ∧
      ∀ commit ∈ setting.range fold.folded fold.tip,
        c'.world.outside.HeldBy setting (fun _ ↦ True) commit := by
  have hfolds := hc.folds
  have hsheltered : Sheltered setting c.world.outside := by
    refine ⟨hc.head, hc.rebasing, hc.source, fun fold hfold ↦ ?_, fun fold hfold ↦ ?_⟩
    · rw [hfolds] at hfold
      cases hfold
    · rw [hfolds] at hfold
      cases hfold
  have hguarded := sound_sheltering.guarded_exec halong hexec
    ⟨hsheltered, fun i p hrunning ↦ (by rw [hc.idle i] at hrunning; cases hrunning)⟩
  have hended : Sheltered setting c'.world.outside := hguarded.1
  intro fold hfold
  refine ⟨hended.recorded fold hfold, fun commit hcommit ↦ ?_⟩
  obtain ⟨name, oid, -, href, hreach⟩ := hended.kept fold hfold commit hcommit
  exact ⟨name, oid, trivial, href, hreach⟩

/-- A check that is enough: every ref that is asked for is read, and where a ref is deleted no squash
of another merge stands. -/
def isSole (setting : Setting) (c : Stage) : Happening → Bool
  | .enter _ (.merge _ params) => params.resuming || !params.stages.squash ||
      isRecordable setting params c.world.outside
  | .act process choice =>
    match c.running process with
    | some (.perform (.outside (.deleteRef _)) _) =>
      c.world.outside.folds.all (·.run = c.world.outside.current)
    | some (.perform (.outside (.showRef side name)) _) =>
      (choice (.outside (.showRef side name))).toBool
    | _ => true
  | _ => true

theorem recordable_of_isSole {c : Stage} {label : Happening} (h : isSole setting c label = true) :
    Recordable setting c label := by
  cases label with
  | leave process => trivial
  | enter process job =>
    cases job with
    | merge id params =>
      intro hresuming hsquash
      simpa [isSole, hresuming, hsquash] using h
    | rollBack _ _ | abort _ | work | advance => trivial
  | act process choice =>
    intro command rest hrunning
    simp only [isSole, hrunning] at h
    cases command with
    | deleteRef name =>
      cases hchoice : choice (.outside (.deleteRef name)) with
      | error fault => trivial
      | ok extra =>
        intro _ fold hfold hrun
        exact absurd (of_decide_eq_true (List.all_eq_true.mp h fold hfold)) hrun
    | showRef side name =>
      cases hchoice : choice (.outside (.showRef side name)) with
      | error fault => simp [hchoice, Except.toBool] at h
      | ok extra => cases side <;> trivial
    | _ => trivial

end Runs

/-! ### Two runs -/

/-- Commits `1` and `2` are folded into `3`, and then `4` and `5` into `6`. Commits `7` and `8` are
snapshots of a home, at `2` and at `4`. -/
def refolding : History where
  commits := [⟨8⟩, ⟨7⟩, ⟨6⟩, ⟨5⟩, ⟨4⟩, ⟨3⟩, ⟨2⟩, ⟨1⟩, ⟨0⟩]
  parents commit :=
    match commit.value with
    | 1 | 3 => [⟨0⟩]
    | 2 => [⟨1⟩]
    | 4 | 6 => [⟨3⟩]
    | 5 | 8 => [⟨4⟩]
    | 7 => [⟨2⟩]
    | _ => []
  tree commit := if commit.value ∈ [5, 6, 8] then oneFile else ∅
  ordered := by decide
  closed := by decide

def refoldingMain : Setting := { intoMain with toHistory := refolding }

/-- The home is at `2`, and `main` is at `0`. -/
def twoAhead : Stage where
  world := { oneAhead.world with
    outside := { oneAhead.world.outside with
      refs := fun store name ↦
        if store = 0 ∧ name = intoMain.branch then some ⟨2⟩
        else if store = 1 ∧ name = intoMain.watched then some ⟨0⟩ else none } }
  running _ := none

theorem unfolded_twoAhead : Unfolded twoAhead where
  idle _ := rfl
  folds := rfl
  head name hname := Head.symbolic.inj hname ▸ rfl
  rebasing _ hnone := by cases hnone
  source name hname := Head.symbolic.inj hname ▸ rfl

def firstMerge : Params where
  target := ⟨intoMain.watched, intoMain.watched_heads, ⟨0⟩⟩
  head := ⟨2⟩
  stages := ⟨false, true, false⟩
  resuming := false

/-- The home is at `4`, with a file nobody recorded. -/
def secondMerge : Params where
  target := ⟨intoMain.watched, intoMain.watched_heads, ⟨3⟩⟩
  head := ⟨4⟩
  stages := ⟨true, true, false⟩
  resuming := false

/-- What the outside answers in the first merge, to a person, and in the second merge. -/
def foldingFirst : (act : Act Command) → act.Choice Command.Choice :=
  granted (fun
    | .mergeBase _ => ⟨0⟩
    | .commitTree _ => ⟨3⟩
    | _ => ⟨7⟩) (.done ⟨0⟩ ∅)

def writing : (act : Act Command) → act.Choice Command.Choice
  | .outside .work => .ok (⟨4⟩, oneFile)
  | act => foldingFirst act

def foldingSecond : (act : Act Command) → act.Choice Command.Choice :=
  granted (fun
    | .mergeBase _ => ⟨3⟩
    | .commit => ⟨5⟩
    | .commitTree _ => ⟨6⟩
    | _ => ⟨8⟩) (.done ⟨0⟩ ∅)

/-- A third process. -/
def successor : Process := ⟨⟨"host", 3⟩, 2⟩

/-- A merge that finishes, a commit in the home, and a merge of that. -/
def mergedTwice : List Happening :=
  [⟨merger, .merge 1 firstMerge, List.replicate 30 foldingFirst⟩,
    ⟨somebody, .work, [writing]⟩,
    ⟨successor, .merge 2 secondMerge, List.replicate 35 foldingSecond⟩].flatMap Session.complete

/-- A merge that is killed after its squash, its rollback, and the merge run again. -/
def mergedAgain : List Happening :=
  [⟨merger, .merge 1 firstMerge, List.replicate 20 foldingFirst⟩,
    ⟨somebody, .rollBack 1 firstMerge, List.replicate 14 foldingFirst⟩].flatMap Session.complete ++
    Session.steps ⟨successor, .merge 2 firstMerge, List.replicate 30 foldingFirst⟩

/-- The merge run again recorded what it folded. -/
theorem squashed_recorded_again : ∃ c, (machine refoldingMain).exec twoAhead
      mergedAgain = some c ∧
    (c.world.journal.view 1).state = some .rolledBack ∧
    (c.world.journal.view 2).state = some .committed ∧
    c.world.outside.folds = [⟨2, ⟨2⟩, ⟨3⟩, some ⟨2⟩⟩] ∧
    ∀ fold ∈ c.world.outside.folds, fold.Recorded refoldingMain ∧
      ∀ commit ∈ refoldingMain.range fold.folded fold.tip,
        c.world.outside.HeldBy refoldingMain (fun _ ↦ True) commit := by
  have hrun : ((machine refoldingMain).exec twoAhead mergedAgain).any
      (fun c ↦ (c.world.journal.view 1).state = some .rolledBack ∧
        (c.world.journal.view 2).state = some .committed ∧
        c.world.outside.folds = [⟨2, ⟨2⟩, ⟨3⟩, some ⟨2⟩⟩]) = true := by
    decide +kernel
  have hsole : (machine refoldingMain).Along (fun c label ↦ isSole refoldingMain c label = true)
      twoAhead mergedAgain := by
    decide +kernel
  have halone : (machine refoldingMain).Along Alone twoAhead mergedAgain :=
    alone_sessions fun _ ↦ rfl
  obtain ⟨c, hexec, hcheck⟩ := Option.any_eq_true _ _ |>.mp hrun
  obtain ⟨hback, hdone, hfolds⟩ := of_decide_eq_true hcheck
  exact ⟨c, hexec, hback, hdone, hfolds, squashed_recorded unfolded_twoAhead
    (halone.and_along (hsole.mono fun _ _ ↦ recordable_of_isSole)) hexec⟩

/-- A home is kept after a merge and merged again: commits `4` and `5` are folded away, and the premerge
ref holds what the first merge recorded. -/
theorem second_squash_unrecorded : Unfolded twoAhead ∧ ∃ c, (machine refoldingMain).exec twoAhead
      mergedTwice = some c ∧
    (c.world.journal.view 1).state = some .committed ∧
    (c.world.journal.view 2).state = some .committed ∧
    ¬∀ fold ∈ c.world.outside.folds, fold.Recorded refoldingMain := by
  have hrun : ((machine refoldingMain).exec twoAhead mergedTwice).any
      (fun c ↦ (c.world.journal.view 1).state = some .committed ∧
        (c.world.journal.view 2).state = some .committed ∧
        ⟨2, ⟨5⟩, ⟨6⟩, some ⟨2⟩⟩ ∈ c.world.outside.folds) = true := by
    decide +kernel
  obtain ⟨c, hexec, hcheck⟩ := Option.any_eq_true _ _ |>.mp hrun
  obtain ⟨hfirst, hsecond, hfold⟩ := of_decide_eq_true hcheck
  refine ⟨unfolded_twoAhead, c, hexec, hfirst, hsecond, fun hrecorded ↦ ?_⟩
  obtain ⟨record, hrecord, hreach⟩ := hrecorded _ hfold ⟨5⟩ (by decide)
  obtain rfl := Option.some.inj hrecord
  exact absurd hreach (by decide)

end Nodal.Merge
