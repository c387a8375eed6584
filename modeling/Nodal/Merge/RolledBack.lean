import Nodal.Foundation.Session
import Nodal.Merge.Forwarded
import Nodal.Merge.Undone

/-!
# A merge that does not finish

The steps of a merge hang together whichever stages run, so the plan of a merge can be taken back. A
merge that is rolled back, at once or by another process after it was killed anywhere, leaves the
branch of the unit where it was and every file that Git does not ignore as it was. A merge whose
rebase stopped for a conflict is committed; `merge --abort` puts the branch back at the commit the
merge recorded, which is the one with the files of the home.
-/

set_option autoImplicit false

namespace Nodal.Merge

open Git Foundation Foundation.Attempt Lifecycle Lifecycle.TakenBack Plumbing

/-! ### The plan of a merge -/

section Links

variable (setting : Setting) (params : Params) (start : World)

/-- The last steps, from the rebase on. -/
def rebaseLinks : List (Link Command World Command.Answer) :=
  (if params.stages.rebase then
    [(Rebase setting params.target.oid).link (Squashed setting params start)
      (Rewriting setting params start)]
  else []) ++
    [(Forward setting params.target).link
      (if params.stages.rebase then Rewriting setting params start else Squashed setting params start)
      (Forwarding setting params start)]

/-- The steps from the record on. -/
def squashLinks : List (Link Command World Command.Answer) :=
  (if params.stages.squash then
    [(RecordPremerge (premerge setting.unit)).link (Committed setting params start)
        (Recording setting params start),
      (Squash setting params.target.oid (premerge setting.unit)).link
        (Recorded setting params start) (Squashing setting params start)]
  else []) ++ rebaseLinks setting params start

/-- The steps after the fetch. -/
def commitLinks : List (Link Command World Command.Answer) :=
  (if params.stages.commit then
    [(CommitWork params.head).link (Beginning setting params start)
      (Committing setting params start)]
  else []) ++ squashLinks setting params start

/-- The steps of a merge, with what stands before each and on its way. -/
def links : List (Link Command World Command.Answer) :=
  (FetchTarget setting params.target (target setting.unit)).link (Beginning setting params start)
    (Restored setting params start) :: commitLinks setting params start

variable {setting params start} {back : World → Prop}

/-- Some links lead to the end of a merge from what stands where `before` does, and back to whatever
`back` leads to. -/
def Leads (setting : Setting) (params : Params) (start : World) (before back : World → Prop)
    (links : List (Link Command World Command.Answer)) : Prop :=
  (∀ w, standing (Forwarding setting params start) links w ↔ before w) ∧
    ∀ back', (∀ w, back w → back' w) → Linked (performance setting) (answered params.stages.squash)
      (Forwarding setting params start) back' links

theorem leads_rebase (hplanned : Planned setting params start) :
    Leads setting params start (Squashed setting params start) (Squashing setting params start)
      (rebaseLinks setting params start) := by
  unfold rebaseLinks
  by_cases hrebase : params.stages.rebase = true
  · have hforwarding (w : World) : Forwarding setting params start w ↔
        Rewriting setting params start w := by
      rw [Forwarding, if_pos hrebase]
    simp only [hrebase, if_true]
    refine ⟨fun w ↦ Iff.rfl, fun back' hback ↦ ⟨?_, ?_, trivial⟩⟩
    · exact rebase_sound (hplanned.fresh (.inr hrebase)) hback fun w ↦ Iff.rfl
    · exact forward_sound hplanned (fun w ↦ (hforwarding w).mpr) fun w ↦ (hforwarding w).mp
  · have hforwarding (w : World) : Forwarding setting params start w ↔
        Squashing setting params start w := by
      rw [Forwarding, if_neg hrebase]
    simp only [hrebase]
    refine ⟨fun w ↦ Iff.rfl, fun back' hback ↦ ⟨forward_sound hplanned (fun w h ↦ ?_) fun w h ↦ ?_,
      trivial⟩⟩
    · obtain ⟨before, after, record, hfolded, hw⟩ := h
      exact (hforwarding w).mpr ⟨before, after, record, hfolded, hw.toAt⟩
    · exact hback w ((hforwarding w).mp h)

/-- Without a squash nothing is folded. -/
theorem folded_iff {before after : Oid} {record : Option Oid} (hsquash : ¬params.stages.squash = true) :
    Folded setting params start before after record ↔
      record = start.ref .home (premerge setting.unit) ∧ after = before ∧ Grounded setting params before := by
  constructor
  · rintro ⟨-, hrecord, hunfolded, hgrounded⟩
    rw [if_neg hsquash] at hrecord
    exact ⟨hrecord, hunfolded (Bool.not_eq_true _ |>.mp hsquash), hgrounded⟩
  · rintro ⟨hrecord, rfl, hgrounded⟩
    exact ⟨rfl, by rw [if_neg hsquash]; exact hrecord, fun _ ↦ rfl, hgrounded⟩

theorem leads_squash (hplanned : Planned setting params start) :
    Leads setting params start (Committed setting params start) (Committing setting params start)
      (squashLinks setting params start) := by
  obtain ⟨hstanding, hlinked⟩ := leads_rebase hplanned
  unfold squashLinks
  by_cases hsquash : params.stages.squash = true
  · rw [if_pos hsquash]
    refine ⟨fun w ↦ Iff.rfl, fun back' hback ↦ ⟨?_, ?_, hlinked _ fun _ h ↦ h⟩⟩
    · exact record_sound (hplanned.fresh (.inl hsquash)) hback fun w ↦ Iff.rfl
    · exact squash_sound hsquash (fun _ h ↦ h) hstanding
  · rw [if_neg hsquash]
    refine ⟨fun w ↦ (hstanding w).trans ⟨?_, ?_⟩, fun back' hback ↦ hlinked back' fun w ↦ ?_⟩
    · rintro ⟨before, after, record, hfolded, hw⟩
      obtain ⟨rfl, rfl, hgrounded⟩ := (folded_iff hsquash).mp hfolded
      exact ⟨_, hgrounded, hw⟩
    · rintro ⟨tip, hgrounded, hw⟩
      exact ⟨tip, tip, _, (folded_iff hsquash).mpr ⟨rfl, rfl, hgrounded⟩, hw⟩
    · rintro ⟨before, after, record, hfolded, hw⟩
      obtain ⟨rfl, rfl, hgrounded⟩ := (folded_iff hsquash).mp hfolded
      exact hback w ⟨_, hgrounded, hw⟩

theorem leads_commit (hplanned : Planned setting params start) :
    Leads setting params start (Beginning setting params start) (Restored setting params start)
      (commitLinks setting params start) := by
  obtain ⟨hstanding, hlinked⟩ := leads_squash hplanned
  unfold commitLinks
  by_cases hcommit : params.stages.commit = true
  · rw [if_pos hcommit]
    refine ⟨fun w ↦ Iff.rfl, fun back' hback ↦ ⟨?_, hlinked _ fun _ h ↦ h⟩⟩
    have hsound := commit_sound params.stages.squash hcommit hstanding
    exact ⟨hsound.begins, hsound.leaves, hsound.applies, fun w hw ↦
      (hsound.undoes w hw).mono fun result w h hok ↦ hback w (h hok)⟩
  · rw [if_neg hcommit]
    have hgrounded {tip : Oid} (h : Grounded setting params tip) : tip = params.head :=
      h.resolve_right fun hmade ↦ hcommit hmade.1
    refine ⟨fun w ↦ (hstanding w).trans ⟨?_, fun h ↦ ⟨params.head, .inl rfl, h⟩⟩,
      fun back' hback ↦ hlinked back' fun w ↦ ?_⟩
    · rintro ⟨tip, htip, hw⟩
      rw [hgrounded htip] at hw
      exact hw
    · rintro ⟨tip, htip, hw⟩
      rw [hgrounded htip] at hw
      exact hback w hw

/-- The links are the steps of the plan. -/
theorem links_works (setting : Setting) (start : World) (hresuming : params.resuming = false) :
    (links setting params start).map (fun link ↦ (link.apply, link.undo)) =
      (works setting params).map fun work ↦ (work.apply.run, work.undo.run) := by
  unfold links commitLinks squashLinks rebaseLinks works rewriting
  rw [hresuming]
  cases params.stages.commit <;> cases params.stages.squash <;> cases params.stages.rebase <;> rfl

theorem length_links (setting : Setting) (start : World) (hresuming : params.resuming = false) :
    (links setting params start).length = (plan setting params).steps.length := by
  have hmap := congrArg List.length (links_works setting start hresuming)
  simpa [plan] using hmap

theorem deeds_links (hresuming : params.resuming = false) (id : OperationId) (k : ℕ)
    (link : Link Command World Command.Answer) (hk : (links setting params start)[k]? = some link) :
    (deeds setting id params).apply k = link.apply ∧ (deeds setting id params).undo k = link.undo := by
  have hmap := congrArg (·[k]?) (links_works setting start hresuming)
  simp only [List.getElem?_map, hk, Option.map_some] at hmap
  cases hwork : (works setting params)[k]? with
  | none => simp [hwork] at hmap
  | some work =>
    simp only [hwork, Option.map_some, Option.some.injEq, Prod.mk.injEq] at hmap
    simp only [deeds, hwork, Option.elim_some]
    exact ⟨hmap.1.symm, hmap.2.symm⟩

/-- The snapshot of the home is on a ref of its own. -/
theorem does_snapshot {squash : Bool} {id : OperationId} {w : World}
    (hw : Beginning setting params start w) :
    Does setting squash (Beginning setting params start) (fun _ _ ↦ True) (snapshot setting id) w := by
  refine does_bind (does_call fun choice _ ↦ ?_)
  have hlooked : (perform setting .gitDir choice w).2 = w := by
    cases choice <;> rfl
  rw [hlooked]
  refine ⟨hw, ?_⟩
  split
  · exact does_pure trivial
  · refine does_ran hw fun made _ ↦ ⟨?_, fun _ _ ↦ trivial⟩
    dsimp only [act]
    split
    · exact hw
    · split
      · exact hw.unseen (unseen_setRef _ (branch_ne (startsWith_pre _ _)) (premerge_ne_pre _ _))
      · exact hw

/-- The plan of a merge can be taken back. -/
theorem merge_takesBack (hplanned : Planned setting params start) (hresuming : params.resuming = false)
    (id : OperationId) :
    TakesBack (performance setting) (answered params.stages.squash) (deeds setting id params)
      (links setting params start).length
      (fun k ↦ standing (Forwarding setting params start) ((links setting params start).drop k))
      (duringAt (links setting params start)) (Restored setting params start)
      (Forwarding setting params start) := by
  obtain ⟨hstanding, hlinked⟩ := leads_commit hplanned
  have hlinks : Linked (performance setting) (answered params.stages.squash)
      (Forwarding setting params start) (Restored setting params start)
      (links setting params start) := ⟨fetch_sound hstanding, hlinked _ fun _ h ↦ h⟩
  refine hlinks.takesBack (deeds_links hresuming id) (fun w (h : Beginning setting params start w) ↦ h.toAt)
    (fun w (hw : Beginning setting params start w) ↦ ?_) fun _ _ w output w' hw hregister ↦ ?_
  · exact (does_snapshot hw).mono fun _ _ _ ↦ trivial
  · obtain ⟨-, rfl⟩ := Prod.mk.inj (Except.ok.inj hregister)
    exact hw

/-- What may stand on the way of a step is about the home and its two refs. -/
theorem during_unseen {link : Link Command World Command.Answer}
    (hlink : link ∈ links setting params start) {w w' : World} (hw : Unseen setting w w')
    (h : link.during w) : link.during w' := by
  have hat {record : Option Oid} {tip : Oid} (h : At setting start record tip w) :
      At setting start record tip w' := h.unseen hw
  simp only [links, commitLinks, squashLinks, rebaseLinks, List.mem_cons, List.mem_append,
    List.mem_ite_nil_right, List.not_mem_nil, or_false] at hlink
  rcases hlink with rfl | ⟨-, rfl⟩ | ⟨-, rfl | rfl⟩ | ⟨-, rfl⟩ | rfl
  · exact hat h
  · obtain ⟨tip, htip, h⟩ := h
    exact ⟨tip, htip, hat h⟩
  · obtain ⟨tip, record, htip, hrecord, h⟩ := h
    exact ⟨tip, record, htip, hrecord, hat h⟩
  · obtain ⟨before, after, record, hfolded, h⟩ := h
    exact ⟨before, after, record, hfolded, hat h⟩
  · obtain ⟨before, after, record, hfolded, h⟩ := h
    exact ⟨before, after, record, hfolded,
      h.imp hat (Or.imp (·.unseen hw) (And.imp_right (·.unseen hw)))⟩
  · exact Forwarding.unseen h hw

theorem reached_unseen {w w' : World} (hw : Unseen setting w w') {m : ℕ}
    (h : Reached (Restored setting params start) (duringAt (links setting params start)) m w) :
    Reached (Restored setting params start) (duringAt (links setting params start)) m w' := by
  cases m with
  | zero => exact At.unseen h hw
  | succ m =>
    change duringAt (links setting params start) m w'
    have h : duringAt (links setting params start) m w := h
    unfold duringAt at h ⊢
    cases hlink : (links setting params start)[m]? with
    | none => trivial
    | some link =>
      rw [hlink] at h
      exact during_unseen (List.mem_of_getElem? hlink) hw h

end Links

/-! ### Runs that do not commit -/

section Runs

variable (setting : Setting) (id : OperationId) (params : Params)

/-- What the outside answers to a step of a history. -/
def Answers (c : Stage) : Happening → Prop
  | .act process choice => ∀ command rest,
    c.running process = some (.perform (.outside command) rest) →
      answered params.stages.squash command (choice (.outside command)) c.world.outside
  | _ => True

/-- One process at a time, and whoever enters rolls the run back. -/
def Interrupted (c : Stage) (label : Happening) : Prop :=
  Alone c label ∧ Answers params c label ∧
    ∀ process job, label = .enter process job → job = .rollBack id params

/-- The run can be taken back to what stood where it began. -/
abbrev Revertible (start : World) : Performed World → Prop :=
  Restorable id (plan setting params).steps.length (duringAt (links setting params start))
    (Restored setting params start) (Forwarding setting params start)

variable {setting id params} {start : World}

/-- The run and the home are seen by what is kept of them only. -/
theorem Restorable.unseen {w w' : Performed World} (h : Revertible setting id params start w)
    (hview : w'.journal.view id = w.journal.view id) (hw : Unseen setting w.outside w'.outside) :
    Revertible setting id params start w' where
  placed := hview ▸ h.placed
  uncommitted hstate := by
    rw [hview] at hstate ⊢
    obtain ⟨m, hm, hacted, hreached⟩ := h.uncommitted hstate
    exact ⟨m, hm, hacted, reached_unseen hw hreached⟩
  rolledBack hstate := (h.rolledBack (hview ▸ hstate)).unseen hw
  committed hstate := (h.committed (hview ▸ hstate)).unseen hw

/-- Entering changes nothing about a run but who is alive. -/
theorem enter_view (id : OperationId) {process : Process} {job : Job} {w w' : Performed World}
    (h : enter setting process job w = some w') :
    w'.journal.view id = w.journal.view id ∧ Unseen setting w.outside w'.outside := by
  unfold enter at h
  split at h
  · cases job with
    | merge id params | rollBack id params =>
      dsimp only at h
      split at h
      · exact Option.some.inj h ▸ ⟨rfl, rfl, rfl, rfl, rfl⟩
      · cases h
    | abort id => exact Option.some.inj h ▸ ⟨rfl, rfl, rfl, rfl, rfl⟩
    | work | advance => exact Option.some.inj h ▸ ⟨rfl, rfl, rfl, rfl, rfl⟩
  · cases h

/-- Who rolls a run back finds it open. -/
theorem running_of_enter {process : Process} {w w' : Performed World}
    (h : enter setting process (.rollBack id params) w = some w') :
    (w.journal.view id).state = some .running := by
  unfold enter at h
  split at h
  · dsimp only at h
    split at h
    · next hgone =>
      obtain ⟨row, hrow, hstate⟩ := (Option.any_eq_true _ _).mp hgone.1
      have hrunning : row.state = .running := by
        simp only [Bool.and_eq_true, decide_eq_true_eq] at hstate
        exact hstate.1
      exact Option.map_eq_some_iff.mpr ⟨row, hrow, hrunning⟩
    · cases h
  · cases h

/-- The plan of a merge can be taken back, step by step of the journal. -/
theorem plan_takesBack (id : OperationId) (hplanned : Planned setting params start) (hresuming : params.resuming = false) :
    TakesBack (performance setting) (answered params.stages.squash) (deeds setting id params)
      (plan setting params).steps.length
      (fun k ↦ standing (Forwarding setting params start) ((links setting params start).drop k))
      (duringAt (links setting params start)) (Restored setting params start)
      (Forwarding setting params start) :=
  length_links setting start hresuming ▸ merge_takesBack hplanned hresuming id

/-- What a process of the merge may leave behind when it dies. -/
abbrev reverting (setting : Setting) (id : OperationId) (params : Params) (start : World) :
    Contract Process (Performed World) (Act Command) (Act.Choice Command.Choice) :=
  keeping (machine setting) (assumed (answered params.stages.squash))
    (Revertible setting id params start)

theorem answers_assumed {c : Stage} {process : Process}
    {choice : (act : Act Command) → act.Choice Command.Choice} {act : Act Command}
    {rest : act.Answer Command.Answer → Doing Bool} (h : Answers params c (.act process choice))
    (hrunning : c.running process = some (.perform act rest)) :
    assumed (answered params.stages.squash) act (choice act) c.world := by
  cases act with
  | journal effect => trivial
  | outside command => exact h command rest hrunning

/-- A rollback that enters takes the run back. -/
theorem sound_reverting (hplanned : Planned setting params start) (hresuming : params.resuming = false) :
    Sound (machine setting) (reverting setting id params start) (fun _ _ _ ↦ True)
      (Interrupted id params) := by
  refine sound_keeping (fun h ↦ h.1) (fun h hrunning ↦ answers_assumed h.2.1 hrunning)
    (fun {c i job world} h hidle hworld hinv ↦ ?_) fun {c i p} h hrunning hinv ↦ ?_
  · obtain rfl := h.2.2 i job rfl
    have hworld : enter setting i (.rollBack id params) c.world = some world := hworld
    obtain ⟨hview, hunseen⟩ := enter_view id hworld
    have hentered : Revertible setting id params start world :=
      Restorable.unseen hinv hview hunseen
    refine ⟨hentered, ?_⟩
    have hrunning := running_of_enter hworld
    obtain ⟨m, hm, hacted, hreached⟩ := hentered.uncommitted fun hcommitted ↦ by
      rw [hview, hrunning] at hcommitted
      cases hcommitted
    have hopen : Open id m (Reached (Restored setting params start)
        (duringAt (links setting params start)) m) world :=
      ⟨hview ▸ hrunning, hentered.placed, hacted, hreached⟩
    have htakes := plan_takesBack id hplanned hresuming
    exact safe_map (safe_rollBack rfl htakes hm hopen)
  · exact Restorable.unseen hinv rfl ⟨rfl, rfl, rfl, rfl⟩

/-- What `prepare` found is what stands before the first step. -/
theorem beginning_of_prepared {w : World} (h : prepared setting params w = true)
    (hresuming : params.resuming = false) : Beginning setting params w w := by
  simp only [prepared, hresuming, Bool.and_eq_true, decide_eq_true_eq] at h
  obtain ⟨⟨⟨⟨hmarker, hrebasing⟩, hbranch⟩, hhead⟩, -⟩ := h
  have hnone : w.home.rebasing = none := by
    simpa using hrebasing.symm
  rw [hnone] at hbranch
  refine ⟨⟨⟨hmarker, rfl, rfl, rfl⟩, of_decide_eq_true hbranch, hnone, hhead, fun _ _ ↦ rfl⟩, rfl, ?_⟩
  exact fun path hpath hlost ↦ absurd hlost hpath

/-- A merge that enters, over a journal that holds nothing of it. -/
theorem guarded_enter {c c₀ : Stage} {process : Process} (hidle : Idle c)
    (huntouched : c.world.journal.view id = ⟨none, ∅, []⟩)
    (hplanned : Planned setting params c.world.outside) (hresuming : params.resuming = false)
    (henter : (machine setting).next c (.enter process (.merge id params)) = some c₀) :
    Guarded (machine setting) (reverting setting id params c.world.outside) (fun _ _ _ ↦ True) c₀ := by
  obtain ⟨-, world, hworld, rfl⟩ := Machine.next_enter_eq_some.mp henter
  have hworld : enter setting process (.merge id params) c.world = some world := hworld
  obtain ⟨hview, hunseen⟩ := enter_view id hworld
  have hprepared : prepared setting params c.world.outside = true := by
    unfold enter at hworld
    split at hworld
    · dsimp only at hworld
      split at hworld
      · next h => exact h.2.2
      · cases hworld
    · cases hworld
  have hbegun : Beginning setting params c.world.outside world.outside :=
    (beginning_of_prepared hprepared hresuming).unseen hunseen
  have hnothing : world.journal.view id = ⟨none, ∅, []⟩ := hview.trans huntouched
  have hnew (position : ℕ) : (world.journal.view id).steps.get? position = none := by
    rw [hnothing]
    simp
  have hstate : (world.journal.view id).state = none := by
    rw [hnothing]
    rfl
  refine ⟨⟨fun position row hrow ↦ ?_, fun _ ↦ ⟨0, Nat.zero_le _, fun position ↦ ?_, hbegun.toAt⟩,
    fun hback ↦ ?_, fun hcommitted ↦ ?_⟩, fun i p hrunning ↦ ?_⟩
  · rw [hnew] at hrow
    cases hrow
  · simp [hnew]
  · rw [hstate] at hback
    cases hback
  · rw [hstate] at hcommitted
    cases hcommitted
  · have hrunning : Function.update c.running process
        (some (programOf setting (.merge id params))) i = some p := hrunning
    by_cases hi : i = process
    · subst hi
      rw [Function.update_self] at hrunning
      obtain rfl := Option.some.inj hrunning
      have htakes := plan_takesBack id hplanned hresuming
      exact safe_map (safe_run rfl rfl htakes hnew hbegun)
    · rw [Function.update_of_ne hi, hidle i] at hrunning
      cases hrunning

/-- A merge killed anywhere and rolled back any number of times. -/
theorem revertible_exec {c c₀ c₁ : Stage} {process : Process} {labels : List Happening}
    (hidle : Idle c) (huntouched : c.world.journal.view id = ⟨none, ∅, []⟩)
    (hplanned : Planned setting params c.world.outside) (hresuming : params.resuming = false)
    (henter : (machine setting).next c (.enter process (.merge id params)) = some c₀)
    (halong : (machine setting).Along (Interrupted id params) c₀ labels)
    (hexec : (machine setting).exec c₀ labels = some c₁) :
    Revertible setting id params c.world.outside c₁.world :=
  ((sound_reverting hplanned hresuming).guarded_exec halong hexec
    (guarded_enter hidle huntouched hplanned hresuming henter)).1

/-! ### A merge that stopped -/

/-- Stopping a rebase puts the branch at the commit the merge recorded. -/
theorem does_abortMerge {w : World} (hw : Forwarding setting params start w)
    (hplanned : Planned setting params start) (hstopped : w.home.rebasing.isSome = true) :
    Does setting params.stages.squash (fun _ ↦ True) (fun _ ↦ Committing setting params start)
      (abortMerge setting) w := by
  obtain ⟨rebasing, hrebasing⟩ := Option.isSome_iff_exists.mp hstopped
  obtain ⟨hrebase, before, after, record, hfolded, hw⟩ :
      params.stages.rebase = true ∧ ∃ before after record,
        Folded setting params start before after record ∧ Stopped setting start record after w := by
    unfold Forwarding at hw
    split at hw
    · next hrebase =>
      obtain ⟨before, after, record, hfolded, hw | hw | ⟨-, hw⟩⟩ := hw
      · cases hw.rebasing.symm.trans hrebasing
      · exact ⟨hrebase, before, after, record, hfolded, hw⟩
      · cases hw.rebasing.symm.trans hrebasing
    · obtain ⟨before, after, record, hfolded, hw⟩ := hw
      cases hw.rebasing.symm.trans hrebasing
  have hfresh := hplanned.fresh (.inr hrebase)
  have haborted := hw.aborted hrebasing
  have hdropped (w : World) (hw : At setting start none before w) :
      Does setting params.stages.squash (fun _ ↦ True) (fun _ ↦ Committing setting params start)
        (deleteRef (target setting.unit)) w := by
    refine does_deleteRef trivial ⟨trivial, before, hfolded.grounded, ?_⟩
    rw [hfresh]
    exact hw.unseen unseen_deleted
  refine does_bind (does_isRebasing trivial ?_)
  rw [hstopped]
  refine does_bind (does_abort trivial (fun hnone ↦ ?_) fun rebasing' hrebasing' ↦ ⟨trivial, ?_⟩)
  · cases hnone.symm.trans hrebasing
  obtain rfl : rebasing = rebasing' := Option.some.inj (hrebasing.symm.trans hrebasing')
  refine does_bind (does_readRef trivial ?_)
  rw [haborted.record]
  by_cases hsquash : params.stages.squash = true
  · -- The merge recorded the branch before it squashed it.
    obtain rfl : record = some before := hfolded.record.trans (if_pos hsquash)
    have hput (w : World) (h : At setting start (some before) before w) :
        Does setting params.stages.squash (fun _ ↦ True) (fun _ ↦ Committing setting params start)
          (do deleteRef (premerge setting.unit); deleteRef (target setting.unit)) w :=
      does_bind (does_deleteRef trivial ⟨trivial, hdropped _ h.deleted⟩)
    refine does_bind (does_restore trivial haborted.head (fun hthere ↦ ?_) fun tip htip ↦
      ⟨trivial, ?_⟩)
    · obtain rfl : after = before := Option.some.inj (haborted.branch.symm.trans hthere)
      exact hput _ haborted
    · obtain rfl : after = tip := Option.some.inj (haborted.branch.symm.trans htip)
      exact hput _ (haborted.keepHome hfolded.tree)
  · obtain ⟨rfl, rfl, -⟩ := (folded_iff hsquash).mp hfolded
    rw [hfresh] at haborted ⊢
    exact hdropped _ haborted

/-- What the abort of a stopped merge leaves. -/
theorem safe_abort {w : Performed World} {process : Process}
    (hw : Forwarding setting params start w.outside) (hplanned : Planned setting params start)
    (hstopped : w.outside.home.rebasing.isSome = true) :
    Safe (machine setting) (keeping (machine setting) (assumed (answered params.stages.squash))
        fun _ ↦ True) process
      (fun succeeded w ↦ succeeded = true → Committing setting params start w.outside)
      (programOf setting (.abort id)) w := by
  have hscript : Safe (machine setting) (keeping (machine setting)
      (assumed (answered params.stages.squash)) fun _ ↦ True) process
      (fun result w' ↦ w'.journal = w.journal ∧ True ∧
        ∀ value, result = .ok value → Committing setting params start w'.outside)
      (outside (abortMerge setting).run) w :=
    safe_outside rfl (does_abortMerge hw hplanned hstopped) trivial fun _ _ ↦ trivial
  refine safe_map (hscript.mono fun result w' h hsucceeded ↦ ?_)
  cases result with
  | ok value => exact h.2.2 value rfl
  | error why => cases hsucceeded

/-- What a process does that aborts a merge. -/
def aborting (process : Process) (id : OperationId)
    (choices : List ((act : Act Command) → act.Choice Command.Choice)) : List Happening :=
  .enter process (.abort id) :: choices.map (.act process)

/-- A process that aborts the stopped merge and answers without an error. -/
theorem aborted_exec {c c₁ : Stage} {process : Process} {id : OperationId}
    {choices : List ((act : Act Command) → act.Choice Command.Choice)}
    (hw : Forwarding setting params start c.world.outside) (hplanned : Planned setting params start)
    (hstopped : c.world.outside.home.rebasing.isSome = true)
    (halong : (machine setting).Along (Answers params) c (aborting process id choices))
    (hexec : (machine setting).exec c (aborting process id choices) = some c₁) (hended : c₁.running process = some (.done true)) :
    Committing setting params start c₁.world.outside := by
  obtain ⟨c₀, henter, hacts⟩ := Machine.exec_cons_eq_some.mp hexec
  have halong := halong.2 c₀ henter
  obtain ⟨-, world, hworld, rfl⟩ := Machine.next_enter_eq_some.mp henter
  have hworld : enter setting process (.abort id) c.world = some world := hworld
  obtain ⟨-, hunseen⟩ := enter_view id hworld
  have hentered : Safe (machine setting) _ process _ (programOf setting (.abort id)) world :=
    safe_abort (hw.unseen hunseen) hplanned (hunseen.home ▸ hstopped)
  obtain ⟨p, hp, hsafe, -⟩ := safe_acts answers_assumed halong hacts (Function.update_self ..)
    hentered trivial
  obtain rfl : p = .done true := Option.some.inj (hp.symm.trans hended)
  exact hsafe c₁.world rfl trivial rfl

/-- A merge that does not finish leaves the unit as it found it: rolled back, its branch is where it
was, and so are its files and the premerge ref; aborted after its rebase stopped, the branch is where
it was or at the commit of the commit stage, and the files are as they were.

Assumes: one process at a time; the merge does not resume another, and where it squashes or rebases no
earlier merge left a record; refs and the files of a rebase can be read, and without a squash no
rebase is carried to its end. -/
theorem unfinished_merge_restored {c c₀ c₁ : Stage} {process : Process} {labels : List Happening}
    (hidle : Idle c) (huntouched : c.world.journal.view id = ⟨none, ∅, []⟩)
    (hplanned : Planned setting params c.world.outside) (hresuming : params.resuming = false)
    (henter : (machine setting).next c (.enter process (.merge id params)) = some c₀)
    (halong : (machine setting).Along (Interrupted id params) c₀ labels)
    (hexec : (machine setting).exec c₀ labels = some c₁) :
    ((c₁.world.journal.view id).state = some .rolledBack →
      Restored setting params c.world.outside c₁.world.outside) ∧
    ∀ other choices c₂, (c₁.world.journal.view id).state = some .committed →
      c₁.world.outside.home.rebasing.isSome = true →
      (machine setting).Along (Answers params) c₁ (aborting other id choices) →
      (machine setting).exec c₁ (aborting other id choices) = some c₂ →
      c₂.running other = some (.done true) →
        Committing setting params c.world.outside c₂.world.outside := by
  have hrevertible := revertible_exec hidle huntouched hplanned hresuming henter halong hexec
  refine ⟨hrevertible.rolledBack, fun other choices c₂ hcommitted hstopped halong' hexec' hended ↦ ?_⟩
  exact aborted_exec (hrevertible.committed hcommitted) hplanned hstopped halong' hexec' hended

end Runs

/-! ### Two runs -/

/-- The files of a home with one of them. -/
def oneFile : Tree := (∅ : Tree).set "a" "x"

/-- Commits `1` and `2` each add to commit `0`. Commit `3` records a file on `1`, and `4` is what `1`
and `3` are folded into. -/
def folding : History where
  commits := [⟨4⟩, ⟨3⟩, ⟨2⟩, ⟨1⟩, ⟨0⟩]
  parents commit := if commit = ⟨3⟩ then [⟨1⟩] else if commit = ⟨0⟩ then [] else [⟨0⟩]
  tree commit := if commit.value < 3 then ∅ else oneFile
  ordered := by decide
  closed := by decide

def foldingMain : Setting := { intoMain with toHistory := folding }

/-- The home is at `1` with a file nobody recorded, and `main` is at `2`. -/
def oneUntracked : Stage where
  world := { oneAhead.world with
    outside := { oneAhead.world.outside with
      refs := fun store name ↦
        if store = 0 ∧ name = intoMain.branch then some ⟨1⟩
        else if store = 1 ∧ name = intoMain.watched then some ⟨2⟩ else none
      home := { oneAhead.world.outside.home with work := oneFile } } }
  running _ := none

def everyStage : Params where
  target := ⟨intoMain.watched, intoMain.watched_heads, ⟨2⟩⟩
  head := ⟨1⟩
  stages := ⟨true, true, true⟩
  resuming := false

/-- Every command runs, and the rebase stops. -/
def stopping : (act : Act Command) → act.Choice Command.Choice :=
  granted (fun
    | .mergeBase _ => ⟨0⟩
    | .commitTree _ => ⟨4⟩
    | _ => ⟨3⟩) (.stopped ⟨2⟩ ∅ ∅)

theorem answered_stopping (squash : Bool) (command : Command) (w : World) :
    answered squash command (stopping (.outside command)) w := by
  cases command <;> trivial

/-- A merge killed after its squash, and a process that rolls it back. -/
def killed : Session Process Job (Act Command) (Act.Choice Command.Choice) :=
  ⟨merger, .merge 1 everyStage, List.replicate 26 stopping⟩

def takenOver : Session Process Job (Act Command) (Act.Choice Command.Choice) :=
  ⟨somebody, .rollBack 1 everyStage, List.replicate 15 stopping⟩

/-- What happens after the merge entered. -/
def afterEntering : List Happening :=
  killed.choices.map (.act merger) ++ [.leave merger] ++ takenOver.steps

theorem planned_oneUntracked : Planned foldingMain everyStage oneUntracked.world.outside where
  fresh _ := rfl
  apart h := by cases h

theorem interrupted_afterEntering {c₀ : Stage}
    (henter : (machine foldingMain).next oneUntracked (.enter merger (.merge 1 everyStage)) =
      some c₀) : (machine foldingMain).Along (Interrupted 1 everyStage) c₀ afterEntering := by
  have halone : (machine foldingMain).Along Alone oneUntracked
      ([killed].flatMap Session.complete ++ takenOver.steps) := alone_sessions fun _ ↦ rfl
  refine ((halone.2 c₀ henter).and (L := fun label ↦
    (∀ process choice, label = .act process choice → choice = stopping) ∧
      ∀ process job, label = .enter process job → job = .rollBack 1 everyStage) ?_).mono ?_
  · simp [killed, takenOver, Session.steps]
  · rintro c label ⟨halone, hchoice, hjob⟩
    refine ⟨halone, ?_, hjob⟩
    cases label with
    | act process choice =>
      obtain rfl := hchoice process choice rfl
      exact fun command rest _ ↦ answered_stopping _ command _
    | enter process job => trivial
    | leave process => trivial

/-- The merge is rolled back, and the file nobody recorded is there. -/
theorem unfinished_merge_restored_killed : ∃ c₀ c₁, (machine foldingMain).next oneUntracked
      (.enter merger (.merge 1 everyStage)) = some c₀ ∧
    (machine foldingMain).exec c₀ afterEntering = some c₁ ∧
    (c₁.world.journal.view 1).state = some .rolledBack ∧
    Restored foldingMain everyStage oneUntracked.world.outside c₁.world.outside := by
  have hrun : ((machine foldingMain).exec oneUntracked
      (.enter merger (.merge 1 everyStage) :: afterEntering)).any (fun c ↦
      (c.world.journal.view 1).state = some .rolledBack) = true := by
    decide +kernel
  obtain ⟨c₁, hexec, hcheck⟩ := Option.any_eq_true _ _ |>.mp hrun
  obtain ⟨c₀, henter, hrest⟩ := Machine.exec_cons_eq_some.mp hexec
  have hstate := of_decide_eq_true hcheck
  exact ⟨c₀, c₁, henter, hrest, hstate, (unfinished_merge_restored (fun _ ↦ rfl) rfl
    planned_oneUntracked rfl henter (interrupted_afterEntering henter) hrest).1 hstate⟩

/-- A merge that stops, and a process that aborts it. -/
def stoppedAndAborted : List Happening :=
  .enter merger (.merge 1 everyStage) :: (List.replicate 39 stopping).map (.act merger) ++
    .leave merger :: aborting somebody 1 (List.replicate 11 stopping)

/-- A merge of a home with a file nobody recorded stops, and is aborted: the branch is at the commit of
the commit stage, and not where the merge found it. -/
theorem aborted_keeps_commit :
    oneUntracked.world.outside.ref .home foldingMain.branch = some ⟨1⟩ ∧
      ∃ c, (machine foldingMain).exec oneUntracked stoppedAndAborted = some c ∧
        (∃ succeeded, c.running somebody = some (.done succeeded) ∧ succeeded = true) ∧
        c.world.outside.ref .home foldingMain.branch = some ⟨3⟩ := by
  have hrun : ((machine foldingMain).exec oneUntracked stoppedAndAborted).any (fun c ↦
      ((c.running somebody).any fun p ↦
        match p with
        | .done succeeded => succeeded
        | .perform _ _ => false) &&
      c.world.outside.ref .home foldingMain.branch = some ⟨3⟩) = true := by
    decide +kernel
  obtain ⟨c, hexec, hcheck⟩ := Option.any_eq_true _ _ |>.mp hrun
  obtain ⟨hended, hbranch⟩ := Bool.and_eq_true_iff.mp hcheck
  obtain ⟨p, hp, hdone⟩ := Option.any_eq_true _ _ |>.mp hended
  refine ⟨rfl, c, hexec, ?_, of_decide_eq_true hbranch⟩
  cases p with
  | done succeeded => exact ⟨succeeded, hp, hdone⟩
  | perform act next => cases hdone

end Nodal.Merge
