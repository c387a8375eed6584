import Nodal.Merge.Honours

/-!
# What a merge does to the branch it merges into

A merge moves the branch of the project's checkout forward, and its undo moves it back to the commit
it was at when the merge was planned. The fast-forward looks whether the new commit reaches the one
the branch is at, and moves it with another command; the undo looks at nothing. `Standing` is what
holds while nobody gets in between: every commit others put on the branch is still reachable from it,
and where a merge was the last to move it they are reachable from where it was before.
-/

set_option autoImplicit false

namespace Nodal.Merge

open Git Foundation Foundation.Attempt Lifecycle Plumbing

variable (setting : Setting)

/-! ### What is owed, and what the others have to leave alone -/

/-- The branch reaches a commit. -/
def World.Holds (w : World) (commit : Oid) : Prop :=
  ∃ tip, w.ref .source setting.watched = some tip ∧ commit ∈ setting.reach tip

/-- Where the home keeps its refs with the checkout, it is on another branch. -/
def World.Apart (w : World) : Prop :=
  w.home.store = w.source.store → setting.branch ≠ setting.watched ∧
    w.home.head ≠ .symbolic setting.watched ∧
      ∀ rebasing, w.home.rebasing = some rebasing → rebasing.branch ≠ setting.watched

/-- What holds of the branch while every move of it is undisturbed. -/
structure Standing (w : World) : Prop where
  kept : ∀ commit ∈ w.others, w.Holds setting commit
  back : ∀ oid, w.forwarded = some oid → ∀ commit ∈ w.others, commit ∈ setting.reach oid
  apart : w.Apart setting

/-- The move of the branch a command makes. -/
def Command.moves (w : World) : Command → Option (Why × Oid)
  | .resetKeep .source why dest =>
    if w.source.head = .symbolic setting.watched then some (why, dest) else none
  | .branchForce .source why branch dest =>
    if branch = setting.watched then some (why, dest) else none
  | _ => none

/-- A fast-forward finds the branch where it was read, and an undo finds it where a merge put it from
the commit it goes back to. -/
def Why.fits (w : World) (dest : Oid) : Why → Bool
  | .forward found => w.ref .source setting.watched = some found
  | .restore => w.forwarded = some dest

/-- A move finds the branch where it should, or at an ancestor of where it goes. -/
def undisturbed (command : Command) (w : World) : Bool :=
  match command.moves setting w with
  | none => true
  | some (why, dest) =>
    (w.ref .source setting.watched).any (setting.isAncestor · dest) || why.fits setting w dest

/-- What a process has looked at before it runs a command. `shared` is whether the home keeps its
refs with the checkout. -/
def Owes (shared : Prop) : Command → Prop
  | .resetKeep .source (.forward found) dest => found ∈ setting.reach dest
  | .branchForce .source (.forward found) _ dest => found ∈ setting.reach dest
  | .branchForce .home _ branch _ => shared → branch ≠ setting.watched
  | .updateRef name _ | .deleteRef name | .fetchBranch _ name | .snapshot name =>
    name ≠ setting.watched
  | _ => True

variable {setting} {w w' : World} {commit dest : Oid}

/-! ### What one command does -/

/-- Nothing the branch depends on was touched. -/
structure Unmoved (setting : Setting) (w w' : World) : Prop where
  source : w'.source = w.source
  store : w'.home.store = w.home.store
  ref : w'.refs w.source.store setting.watched = w.refs w.source.store setting.watched
  others : w'.others = w.others
  forwarded : w'.forwarded = w.forwarded

theorem Standing.of_unmoved (hw : Standing setting w) (h : Unmoved setting w w')
    (hhead : w.home.store = w.source.store → w'.home.head ≠ .symbolic setting.watched ∧
      ∀ rebasing, w'.home.rebasing = some rebasing → rebasing.branch ≠ setting.watched) :
    Standing setting w' where
  kept commit hcommit := by
    obtain ⟨tip, htip, hreach⟩ := hw.kept commit (h.others ▸ hcommit)
    refine ⟨tip, ?_, hreach⟩
    change w'.refs w'.source.store setting.watched = some tip
    rw [h.source, h.ref]
    exact htip
  back oid hoid commit hcommit := hw.back oid (h.forwarded ▸ hoid) commit (h.others ▸ hcommit)
  apart hstore := by
    rw [h.source, h.store] at hstore
    exact ⟨(hw.apart hstore).1, hhead hstore⟩

/-- A ref of the home is written that is not the branch. -/
theorem unmoved_setRef {name : RefName} {value : Option Oid}
    (h : w.home.store = w.source.store → name ≠ setting.watched) :
    Unmoved setting w (w.setRef w.home.store name value) where
  source := rfl
  store := rfl
  ref := by
    refine World.refs_setRef_of_ne ?_
    by_cases hstore : w.home.store = w.source.store
    · exact .inr (h hstore).symm
    · exact .inl fun heq ↦ hstore heq.symm
  others := rfl
  forwarded := rfl

/-- What `HEAD` of the home names is moved. -/
theorem Standing.unmoved_moveHead (hw : Standing setting w) : Unmoved setting w (w.moveHead dest) := by
  unfold World.moveHead
  split
  · next name hname =>
    exact unmoved_setRef fun hstore heq ↦ (hw.apart hstore).2.1 (hname.trans (heq ▸ rfl))
  · exact ⟨rfl, rfl, rfl, rfl, rfl⟩

theorem moveHead_home (w : World) (dest : Oid) : (w.moveHead dest).home.rebasing = w.home.rebasing ∧
    ((w.moveHead dest).home.head = w.home.head ∨ (w.moveHead dest).home.head = .detached dest) := by
  unfold World.moveHead
  split
  · exact ⟨rfl, .inl rfl⟩
  · exact ⟨rfl, .inr rfl⟩

theorem Standing.moveHead (hw : Standing setting w) : Standing setting (w.moveHead dest) := by
  refine hw.of_unmoved hw.unmoved_moveHead fun hstore ↦ ?_
  obtain ⟨hrebasing, hhead⟩ := moveHead_home w dest
  refine ⟨?_, fun rebasing h ↦ (hw.apart hstore).2.2 rebasing (hrebasing ▸ h)⟩
  rcases hhead with hhead | hhead
  · rw [hhead]
    exact (hw.apart hstore).2.1
  · rw [hhead]
    intro heq
    cases heq

/-- The index, the working tree and the squashes say nothing about the branch. -/
theorem Standing.with_trees (hw : Standing setting w) (index work : Tree) (folds : List Fold) :
    Standing setting { w with home := { w.home with index, work }, folds } :=
  ⟨hw.kept, hw.back, hw.apart⟩

theorem Standing.setRef (hw : Standing setting w) {name : RefName} (value : Option Oid)
    (h : w.home.store = w.source.store → name ≠ setting.watched) :
    Standing setting (w.setRef w.home.store name value) :=
  hw.of_unmoved (unmoved_setRef h) fun hstore ↦ (hw.apart hstore).2

/-- A rebase ends on its branch, or stops beside it. -/
theorem Standing.rebased (hw : Standing setting w) {rebasing : Rebasing}
    (hbranch : w.home.store = w.source.store → rebasing.branch ≠ setting.watched) {tracked : Tree}
    {outcome : Outcome} : Standing setting (w.rebased setting rebasing tracked outcome).2 := by
  cases outcome with
  | done tip work =>
    dsimp only [World.rebased]
    split
    · have hset := hw.setRef (some tip) hbranch
      exact ⟨hset.kept, hset.back, fun hstore ↦ ⟨(hw.apart hstore).1,
        fun heq ↦ hbranch hstore (Head.symbolic.inj heq), fun other hother ↦ by cases hother⟩⟩
    · exact hw
  | stopped tip index work =>
    dsimp only [World.rebased]
    split
    · exact ⟨hw.kept, hw.back, fun hstore ↦ ⟨(hw.apart hstore).1, fun heq ↦ (by cases heq),
        fun other hother ↦ Option.some.inj hother ▸ hbranch hstore⟩⟩
    · exact hw

/-- The branch is moved by somebody who looked where it was. -/
theorem Standing.moveSource (hw : Standing setting w) {why : Why} {name : RefName}
    (howes : ∀ found, why = .forward found → found ∈ setting.reach dest)
    (hundisturbed : name = setting.watched →
      (w.ref .source setting.watched).any (setting.isAncestor · dest) = true ∨
        why.fits setting w dest = true) :
    Standing setting (w.moveSource setting why name dest) := by
  unfold World.moveSource
  dsimp only
  split
  · next hname =>
    subst hname
    -- Everything the branch reached is reached from where it goes.
    have hforward (h : (w.ref .source setting.watched).any (setting.isAncestor · dest) = true) :
        ∀ commit ∈ w.others, commit ∈ setting.reach dest := by
      intro commit hcommit
      obtain ⟨tip, htip, hreach⟩ := hw.kept commit hcommit
      rw [htip, Option.any_some, History.isAncestor, decide_eq_true_iff] at h
      exact History.reach_trans h hreach
    have hkept : ∀ commit ∈ w.others, commit ∈ setting.reach dest := by
      rcases hundisturbed rfl with h | h
      · exact hforward h
      · cases why with
        | restore => exact hw.back dest (of_decide_eq_true h)
        | forward found =>
          refine hforward ?_
          have h : w.ref .source setting.watched = some found := of_decide_eq_true h
          rw [h, Option.any_some, History.isAncestor, decide_eq_true_iff]
          exact howes found rfl
    refine ⟨fun commit hcommit ↦ ⟨dest, World.refs_setRef_self, hkept commit hcommit⟩,
      fun oid hoid commit hcommit ↦ ?_, hw.apart⟩
    cases why with
    | restore => cases hoid
    | forward found =>
      have hoid : w.ref .source setting.watched = some oid := hoid
      obtain ⟨tip, htip, hreach⟩ := hw.kept commit hcommit
      obtain rfl : tip = oid := Option.some.inj (htip.symm.trans hoid)
      exact hreach
  · next hname =>
    refine hw.of_unmoved ⟨rfl, rfl, ?_, rfl, rfl⟩ fun hstore ↦ (hw.apart hstore).2
    exact World.refs_setRef_of_ne (.inr fun heq ↦ hname heq.symm)

/-- Somebody adds a commit to the branch. -/
theorem Standing.advance (hw : Standing setting w) {tip made : Oid}
    (htip : w.ref .source setting.watched = some tip) (hmade : tip ∈ setting.reach made) :
    Standing setting { w.setRef w.source.store setting.watched (some made) with
      others := w.others ++ setting.range tip made, forwarded := none } := by
  refine ⟨fun commit hcommit ↦ ⟨made, World.refs_setRef_self, ?_⟩, fun oid hoid ↦ (by cases hoid),
    hw.apart⟩
  rcases List.mem_append.mp hcommit with hcommit | hcommit
  · obtain ⟨tip', htip', hreach⟩ := hw.kept commit hcommit
    obtain rfl : tip' = tip := Option.some.inj (htip'.symm.trans htip)
    exact History.reach_trans hmade hreach
  · exact (History.mem_range_iff.mp hcommit).1

theorem moveHead_store : (w.moveHead dest).home.store = w.home.store ∧
    (w.moveHead dest).source.store = w.source.store := by
  unfold World.moveHead
  split <;> exact ⟨rfl, rfl⟩

theorem rebased_store {rebasing : Rebasing} {tracked : Tree} {outcome : Outcome} :
    (w.rebased setting rebasing tracked outcome).2.home.store = w.home.store ∧
      (w.rebased setting rebasing tracked outcome).2.source.store = w.source.store := by
  cases outcome with
  | done tip work =>
    dsimp only [World.rebased]
    split <;> exact ⟨rfl, rfl⟩
  | stopped tip index work =>
    dsimp only [World.rebased]
    split <;> exact ⟨rfl, rfl⟩

theorem moveSource_store {why : Why} {name : RefName} :
    (w.moveSource setting why name dest).home.store = w.home.store ∧
      (w.moveSource setting why name dest).source.store = w.source.store := by
  unfold World.moveSource
  dsimp only
  split <;> exact ⟨rfl, rfl⟩

/-- No command moves the refs of the home or of the checkout. -/
theorem act_store (setting : Setting) (w : World) (command : Command) (extra : command.Extra) :
    (act setting command extra w).2.home.store = w.home.store ∧
      (act setting command extra w).2.source.store = w.source.store := by
  have hsame : w.home.store = w.home.store ∧ w.source.store = w.source.store := ⟨rfl, rfl⟩
  cases command with
  | showRef side name | symbolicRef side =>
    dsimp only [Merge.act]
    split <;> exact hsame
  | gitDir | statRebase | revParse branch | revParseHead | fetchObjects branch | diffCached | identity
    | mergeBase onto | count base | commitTree base | isAncestor side earlier later | readMarker
    | addAll | updateRef name oid => exact hsame
  | fetchBranch branch name | rebaseAbort =>
    dsimp only [Merge.act]
    split <;> exact hsame
  | commit | work | resetMixed dest =>
    dsimp only [Merge.act]
    split
    · exact moveHead_store
    · exact hsame
  | resetSoft dest =>
    dsimp only [Merge.act]
    split
    · exact hsame
    · split
      · exact moveHead_store
      · exact hsame
  | rebase onto =>
    dsimp only [Merge.act]
    split
    · split
      · exact rebased_store
      · exact hsame
    · exact hsame
  | rebaseContinue =>
    dsimp only [Merge.act]
    split
    · exact rebased_store
    · exact hsame
  | resetKeep side why dest =>
    cases side with
    | home =>
      dsimp only [Merge.act]
      split
      · exact hsame
      · split
        · exact moveHead_store
        · exact hsame
    | source =>
      dsimp only [Merge.act]
      split
      · split
        · exact moveSource_store
        · exact hsame
      · exact hsame
  | branchForce side why branch dest =>
    cases side with
    | home =>
      dsimp only [Merge.act]
      split <;> exact hsame
    | source =>
      dsimp only [Merge.act]
      split
      · exact moveSource_store
      · exact hsame
  | deleteRef name =>
    dsimp only [Merge.act, World.deleted]
    split <;> exact hsame
  | snapshot name | advance =>
    dsimp only [Merge.act]
    split
    · exact hsame
    · split <;> exact hsame

/-- One command. -/
theorem Standing.act {shared : Prop} (hw : Standing setting w)
    (hshared : w.home.store = w.source.store → shared) {command : Command}
    (howes : Owes setting shared command)
    (hundisturbed : undisturbed setting command w = true) (extra : command.Extra) :
    Standing setting (act setting command extra w).2 := by
  cases command with
  | showRef side name =>
    dsimp only [Merge.act]
    split <;> exact hw
  | symbolicRef side =>
    dsimp only [Merge.act]
    split <;> exact hw
  | gitDir | statRebase | revParse branch | revParseHead | fetchObjects branch | diffCached | identity
    | mergeBase onto | count base | commitTree base | isAncestor side earlier later | readMarker =>
    exact hw
  | fetchBranch branch name =>
    dsimp only [Merge.act]
    split
    · exact hw
    · exact hw.setRef _ fun _ ↦ howes
  | addAll => exact hw.with_trees _ _ _
  | commit =>
    dsimp only [Merge.act]
    split
    · exact hw.moveHead
    · exact hw
  | resetSoft dest =>
    dsimp only [Merge.act]
    split
    · exact hw
    · split
      · exact hw.moveHead.with_trees _ _ _
      · exact hw
  | resetMixed dest =>
    dsimp only [Merge.act]
    split
    · exact hw.moveHead.with_trees _ _ _
    · exact hw
  | rebase onto =>
    dsimp only [Merge.act]
    split
    · next branch tip _ hhead _ =>
      split
      · exact hw.rebased fun hstore heq ↦ (hw.apart hstore).2.1 (hhead.trans (heq ▸ rfl))
      · exact hw
    · exact hw
  | rebaseContinue =>
    dsimp only [Merge.act]
    split
    · next rebasing hrebasing => exact hw.rebased fun hstore ↦ (hw.apart hstore).2.2 _ hrebasing
    · exact hw
  | rebaseAbort =>
    dsimp only [Merge.act]
    split
    · next rebasing hrebasing =>
      have hbranch (hstore : w.home.store = w.source.store) := (hw.apart hstore).2.2 _ hrebasing
      have hset := hw.setRef (some rebasing.original) hbranch
      exact ⟨hset.kept, hset.back, fun hstore ↦ ⟨(hw.apart hstore).1,
        fun heq ↦ hbranch hstore (Head.symbolic.inj heq), fun other hother ↦ (by cases hother)⟩⟩
    · exact hw
  | resetKeep side why dest =>
    cases side with
    | home =>
      dsimp only [Merge.act]
      split
      · exact hw
      · split
        · exact hw.moveHead.with_trees _ _ _
        · exact hw
    | source =>
      dsimp only [Merge.act]
      split
      · split
        · next name hname =>
          refine hw.moveSource (fun found hfound ↦ ?_) fun heq ↦ ?_
          · subst hfound
            exact howes
          · have hmoves : Command.moves setting w (.resetKeep .source why dest) = some (why, dest) :=
              if_pos (hname.trans (heq ▸ rfl))
            simpa [undisturbed, hmoves] using hundisturbed
        · exact ⟨hw.kept, hw.back, hw.apart⟩
      · exact hw
  | branchForce side why branch dest =>
    cases side with
    | home =>
      dsimp only [Merge.act]
      split
      · exact hw.setRef _ fun hstore ↦ howes (hshared hstore)
      · exact hw
    | source =>
      dsimp only [Merge.act]
      split
      · refine hw.moveSource (fun found hfound ↦ ?_) fun heq ↦ ?_
        · subst hfound
          exact howes
        · have hmoves : Command.moves setting w (.branchForce .source why branch dest) =
              some (why, dest) := if_pos heq
          simpa [undisturbed, hmoves] using hundisturbed
      · exact hw
  | updateRef name oid => exact hw.setRef _ fun _ ↦ howes
  | deleteRef name =>
    have hset := hw.setRef none fun _ ↦ howes
    dsimp only [Merge.act, World.deleted]
    split
    · exact hset.with_trees _ _ _
    · exact hset
  | snapshot name =>
    dsimp only [Merge.act]
    split
    · exact hw
    · split
      · exact hw.setRef _ fun _ ↦ howes
      · exact hw
  | advance =>
    dsimp only [Merge.act]
    split
    · exact hw
    · next tip htip =>
      split
      · next h => exact hw.advance htip h.1
      · exact hw
  | work =>
    dsimp only [Merge.act]
    split
    · exact hw.moveHead.with_trees _ _ _
    · exact hw

/-! ### What a process owes -/

/-- What a process counts on and owes, beside whoever else acts on the branch. -/
def alongside (setting : Setting) (shared : Prop) :
    Contract Process World Command Command.Choice where
  inv w := Standing setting w ∧ (w.home.store = w.source.store ↔ shared)
  rely _ _ _ := True
  rely_refl _ _ := trivial
  rely_trans _ _ _ _ _ _ := trivial
  assume _ _ _ _ := True
  pre _ command _ := Owes setting shared command

/-- A script keeps the contract, whatever the others do, and ends with an error or with a value for
which `P` holds. -/
def Keeps (setting : Setting) (shared : Prop) {β : Type} (P : β → Prop) (x : Script β) : Prop :=
  ∀ process w, Safe (performance setting).beside (alongside setting shared) process
    (fun result _ ↦ ∀ value, result = .ok value → P value) x.run w

/-- A script whose value does not matter. -/
abbrev Careful (setting : Setting) (shared : Prop) {β : Type} (x : Script β) : Prop :=
  Keeps setting shared (fun _ ↦ True) x

/-! ### The scripts of a merge -/

section Scripts

variable {shared : Prop} {name : RefName} {command : Command}

theorem allows_alongside (howes : Owes setting shared command) :
    Allows (alongside setting shared) command := fun _ _ _ ↦ howes

theorem lenient_alongside : Lenient (alongside setting shared) := by
  intro command hplain
  cases command <;> first | exact allows_alongside trivial | cases hplain

/-- A ref of Nodal's own is no branch. -/
theorem ne_watched (h : startsWith HEADS name = false) : name ≠ setting.watched := by
  rintro rfl
  rw [setting.watched_heads] at h
  cases h

theorem careful_deleteRef (h : startsWith HEADS name = false) :
    Careful setting shared (deleteRef name) := heeds_deleteRef (allows_alongside (ne_watched h))

/-- The branch a home is on is not the branch others add to. -/
theorem branch_alongside {w : World} {branch : RefName} (hw : (alongside setting shared).inv w)
    (hbranch : w.home.head = .symbolic branch) : shared → branch ≠ setting.watched := by
  rintro hyes rfl
  exact (hw.1.apart (hw.2.mpr hyes)).2.1 hbranch

theorem careful_restoreHead : Careful setting shared (restoreHead setting name) :=
  heeds_restoreHead lenient_alongside (fun _ _ ↦ branch_alongside)
    (fun _ ↦ allows_alongside trivial) fun _ _ hbranch ↦ allows_alongside hbranch

theorem careful_works {params : Params} {work : Work} (h : work ∈ works setting params) :
    Careful setting shared work.apply ∧ Careful setting shared work.undo := by
  have hK : Lenient (alongside setting shared) := lenient_alongside
  have hrecord : startsWith HEADS (premerge setting.unit) = false := startsWith_premerge _
  have hfetched : startsWith HEADS (target setting.unit) = false := startsWith_target _
  simp only [works, rewriting, List.mem_append, List.mem_ite_nil_left, List.mem_ite_nil_right,
    List.mem_cons, List.not_mem_nil, or_false] at h
  rcases h with ((rfl | ⟨-, (⟨-, rfl⟩ | ⟨-, rfl | rfl⟩)⟩) | ⟨-, rfl⟩) | rfl
  · refine ⟨heeds_bind (heeds_fetchBranch hK (allows_alongside (ne_watched hfetched))) fun found ↦ ?_,
      careful_deleteRef hfetched⟩
    split
    · exact honours_pure trivial
    · exact honours_throw
  · exact ⟨heeds_bind (heeds_commitAll hK) fun _ ↦ honours_pure trivial, heeds_uncommit hK⟩
  · refine ⟨heeds_bind (heeds_readRef hK) fun answer ↦ ?_, careful_deleteRef hrecord⟩
    split
    · exact honours_pure trivial
    · refine heeds_bind (heeds_ran (hK _ rfl)) fun head ↦ ?_
      exact heeds_bind (heeds_ran (allows_alongside (ne_watched hrecord))) fun _ ↦ honours_pure trivial
  · refine ⟨?_, careful_restoreHead⟩
    exact heeds_bind (heeds_squash hK fun _ ↦ allows_alongside trivial) fun _ ↦ honours_pure trivial
  · refine ⟨heeds_bind (heeds_rebase hK) fun _ ↦ honours_pure trivial, ?_⟩
    exact heeds_bind (heeds_abort hK) fun _ ↦ heeds_bind (heeds_markerOf hK) fun _ ↦ careful_restoreHead
  · refine ⟨heeds_forward hK fun found dest hreach ↦ ⟨allows_alongside hreach, allows_alongside hreach⟩,
      heeds_restore hK (allows_alongside trivial) (allows_alongside trivial)⟩

theorem careful_snapshot {id : OperationId} : Careful setting shared (snapshot setting id) :=
  heeds_snapshot lenient_alongside (allows_alongside (ne_watched (startsWith_pre _ _)))

theorem careful_abortMerge (hbranch : shared → setting.branch ≠ setting.watched) :
    Careful setting shared (abortMerge setting) :=
  heeds_abortMerge lenient_alongside (fun _ ↦ allows_alongside trivial)
    (fun _ ↦ allows_alongside hbranch) (allows_alongside (ne_watched (startsWith_premerge _)))
    (allows_alongside (ne_watched (startsWith_target _)))

end Scripts

/-! ### Runs -/

section Runs

variable {shared : Prop} {id : OperationId} {params : Params} {process : Process} {job : Job}

theorem deeds_keeps : (deeds setting id params).Keeps (performance setting) (alongside setting shared)
    process where
  snapshot s := Heeds.safe careful_snapshot process s
  apply position s := by
    dsimp only [deeds]
    cases hwork : (works setting params)[position]? with
    | none => exact Heeds.safe honours_throw process s
    | some work => exact Heeds.safe (careful_works (List.mem_of_getElem? hwork)).1 process s
  undo position s := by
    dsimp only [deeds]
    cases hwork : (works setting params)[position]? with
    | none => exact Heeds.safe honours_throw process s
    | some work => exact Heeds.safe (careful_works (List.mem_of_getElem? hwork)).2 process s

/-- Everybody who enters owes nothing more than the contract asks for. -/
theorem safe_programOf (hbranch : shared → setting.branch ≠ setting.watched) (w : Performed World) :
    Safe (machine setting) (whole (alongside setting shared)) process (fun _ _ ↦ True)
      (programOf setting job) w := by
  have hperform : (machine setting).perform = (performance setting).perform := rfl
  have hwork : Owes setting shared .work := trivial
  have hadvance : Owes setting shared .advance := trivial
  have hended {ε β : Type} {p : Doing (Except ε β)}
      (h : Safe (machine setting) (whole (alongside setting shared)) process (fun _ _ ↦ True) p w) :
      Safe (machine setting) (whole (alongside setting shared)) process (fun _ _ ↦ True)
        (succeeds p) w := safe_map h
  cases job with
  | merge id params => exact hended (safe_operated hperform deeds_keeps _)
  | rollBack id params => exact hended (safe_operated hperform deeds_keeps _)
  | abort id => exact hended (safe_outside_whole hperform (Heeds.safe (careful_abortMerge hbranch) process _))
  | work => exact hended (safe_outside_whole hperform (Heeds.safe (heeds_call (allows_alongside hwork)) process _))
  | advance => exact hended (safe_outside_whole hperform (Heeds.safe (heeds_call (allows_alongside hadvance)) process _))

/-- A command that runs and moves the branch is undisturbed. -/
def isUndisturbed (setting : Setting) (c : Stage) : Happening → Bool
  | .act process choice =>
    match c.running process with
    | some (.perform (.outside command) _) =>
      undisturbed setting command c.world.outside || !(choice (.outside command)).toBool
    | _ => true
  | _ => true

/-- What holds of the branch is untouched by what an entering process writes down. -/
theorem enter_alongside {w w' : Performed World} (h : enter setting process job w = some w')
    (hw : (alongside setting shared).inv w.outside) : (alongside setting shared).inv w'.outside := by
  have hnoted : ∀ current plans,
      (alongside setting shared).inv { w.outside with current, plans } :=
    fun _ _ ↦ ⟨⟨hw.1.kept, hw.1.back, hw.1.apart⟩, hw.2⟩
  unfold enter at h
  split at h
  · cases job with
    | merge id params | rollBack id params =>
      dsimp only at h
      split at h
      · exact Option.some.inj h ▸ hnoted _ _
      · cases h
    | abort id => exact Option.some.inj h ▸ hnoted _ _
    | work | advance => exact Option.some.inj h ▸ hw
  · cases h

/-- One effect of a process. -/
theorem perform_alongside {act : Act Command} {choice : act.Choice Command.Choice}
    {w : Performed World} (hw : (whole (alongside setting shared)).inv w)
    (howes : (whole (alongside setting shared)).pre process act w)
    (hundisturbed : ∀ command choice', act = .outside command → HEq choice choice' →
      undisturbed setting command w.outside = true ∨ (choice' : command.Choice).toBool = false) :
    (whole (alongside setting shared)).inv ((machine setting).perform process act choice w).2 := by
  cases act with
  | journal effect =>
    change (alongside setting shared).inv
      ((performance setting).perform process (.journal effect) choice w).2.outside
    rcases outside_stated (performance setting) process w effect choice with heq | ⟨id, outputs, output, s, hregister, heq⟩
    · rw [heq]
      exact hw
    · obtain ⟨-, rfl⟩ := Prod.mk.inj (Except.ok.inj hregister)
      rw [heq]
      exact hw
  | outside command =>
    change (alongside setting shared).inv (perform setting command choice w.outside).2
    rcases choice with fault | extra
    · exact hw
    · have hfits := (hundisturbed command (.ok extra) rfl HEq.rfl).resolve_right (by simp [Except.toBool])
      obtain ⟨hstanding, hshared⟩ := hw
      obtain ⟨hhome, hsource⟩ := act_store setting w.outside command extra
      refine ⟨hstanding.act hshared.mp howes hfits extra, ?_⟩
      change (act setting command extra w.outside).2.home.store =
        (act setting command extra w.outside).2.source.store ↔ shared
      rw [hhome, hsource]
      exact hshared

theorem sound_alongside (hbranch : shared → setting.branch ≠ setting.watched) :
    Sound (machine setting) (whole (alongside setting shared)) (fun _ _ _ ↦ True)
      (fun c label ↦ isUndisturbed setting c label = true) where
  assume {c i choice effect rest} _ _ := by
    cases effect <;> trivial
  act {c i choice effect rest} hP hrunning hinv hpre := by
    refine ⟨perform_alongside hinv hpre fun command choice' hact hchoice ↦ ?_,
      fun _ _ _ _ ↦ .inl trivial⟩
    subst hact
    obtain rfl := eq_of_heq hchoice
    simpa [isUndisturbed, hrunning] using hP
  enter _ _ hworld hinv :=
    ⟨enter_alongside hworld hinv, safe_programOf hbranch _, fun _ _ _ _ ↦ .inl trivial⟩
  leave _ _ hinv := ⟨hinv, fun _ _ _ _ ↦ .inl trivial⟩

/-- Nobody is alive, no merge has moved the branch yet, and every commit it reaches was put there by
somebody else. -/
structure Starting (setting : Setting) (c : Stage) : Prop where
  idle : Idle c
  others : ∀ commit, commit ∈ c.world.outside.others ↔ c.world.outside.Holds setting commit
  forwarded : c.world.outside.forwarded = none
  apart : c.world.outside.Apart setting

end Runs

/-- A merge takes no commit off the branch it merges into, as long as every move of the branch is
undisturbed.

Assumes: a run of any processes from where none is alive, and each command that moves the branch
finds it where the merge read it or left it. -/
theorem merge_keeps_others {c c' : Stage} {labels : List Happening} (hc : Starting setting c)
    (halong : (machine setting).Along (fun c label ↦ isUndisturbed setting c label = true) c labels)
    (hexec : (machine setting).exec c labels = some c') :
    ∀ commit ∈ c'.world.outside.others, c'.world.outside.Holds setting commit := by
  have hinv : (alongside setting (c.world.outside.home.store = c.world.outside.source.store)).inv
      c.world.outside :=
    ⟨⟨fun commit ↦ (hc.others commit).mp, fun oid hoid ↦ (by rw [hc.forwarded] at hoid; cases hoid), hc.apart⟩, Iff.rfl⟩
  have hguarded := (sound_alongside fun hstore ↦ (hc.apart hstore).1).guarded_exec halong hexec
    ⟨hinv, fun i p hrunning ↦ (by rw [hc.idle i] at hrunning; cases hrunning)⟩
  exact hguarded.1.1.kept

/-! ### Two runs -/

/-- Commits `1` and `2` each add to commit `0`, and `3` is the snapshot of a home at `1`. -/
def forked : History where
  commits := [⟨3⟩, ⟨2⟩, ⟨1⟩, ⟨0⟩]
  parents commit := if commit = ⟨3⟩ then [⟨1⟩] else if commit = ⟨0⟩ then [] else [⟨0⟩]
  tree _ := ∅
  ordered := by decide
  closed := by decide

/-- A unit on a branch of its own, merged into `main`. -/
def intoMain : Setting where
  toHistory := forked
  ignored _ _ := false
  unit := "unit"
  slug := "unit"
  branch := ["refs", "heads", "unit"]
  branch_heads := rfl
  watched := ["refs", "heads", "main"]
  watched_heads := rfl
  home := "/home"
  root := "/root"

/-- The home is at `1`, and the checkout is on `main` at `0`. -/
def oneAhead : Stage where
  world := {
    journal := { journal := ⟨∅, fun _ ↦ ∅, Lifecycle.Journal.keyed_empty⟩, processes := [], past := [], named := [],
                 log := fun _ ↦ [] }
    outside := {
      refs := fun store name ↦
        if store = 0 ∧ name = intoMain.branch then some ⟨1⟩
        else if store = 1 ∧ name = intoMain.watched then some ⟨0⟩ else none
      home := { store := 0, head := .symbolic intoMain.branch, index := ∅, work := ∅,
                rebasing := none, marker := some "unit" }
      source := { store := 1, head := .symbolic intoMain.watched }
      plans := fun _ ↦ none
      current := 0
      forwarded := none
      others := [⟨0⟩]
      folds := [] } }
  running _ := none

/-- Every stage but the fast-forward is turned off. -/
def justForward : Params where
  target := ⟨intoMain.watched, intoMain.watched_heads, ⟨0⟩⟩
  head := ⟨1⟩
  stages := ⟨false, false, false⟩
  resuming := false

/-- A process that runs a merge, and one that adds a commit. -/
def merger : Process := ⟨⟨"host", 1⟩, 0⟩

def somebody : Process := ⟨⟨"host", 2⟩, 1⟩

/-- Some effects of a process, where every command runs. -/
def acts (process : Process) (made : Oid) (count : ℕ) : List Happening :=
  List.replicate count (.act process (granted (fun _ ↦ made) (.done made ∅)))

/-- Somebody adds commit `2`. -/
def adding : List Happening := .enter somebody .advance :: acts somebody ⟨2⟩ 1

theorem starting_oneAhead : Starting intoMain oneAhead where
  idle _ := rfl
  others commit := by
    have hreach : intoMain.reach ⟨0⟩ = [⟨0⟩] := by decide
    constructor
    · intro h
      exact ⟨⟨0⟩, rfl, hreach ▸ h⟩
    · rintro ⟨tip, htip, h⟩
      obtain rfl : tip = ⟨0⟩ := (Option.some.inj htip).symm
      rw [hreach] at h
      exact h
  forwarded := rfl
  apart h := by cases h

/-- A merge nobody disturbs commits, and a commit added after it is there as well. -/
theorem merge_keeps_others_undisturbed : ∃ c, (machine intoMain).exec oneAhead
    (.enter merger (.merge 1 justForward) :: acts merger ⟨3⟩ 18) = some c ∧
    (c.world.journal.view 1).state = some .committed ∧
    c.world.outside.ref .source intoMain.watched = some ⟨1⟩ ∧
    ∀ commit ∈ c.world.outside.others, c.world.outside.Holds intoMain commit := by
  have hrun : ((machine intoMain).exec oneAhead
      (.enter merger (.merge 1 justForward) :: acts merger ⟨3⟩ 18)).any (fun c ↦
      (c.world.journal.view 1).state = some .committed ∧
        c.world.outside.ref .source intoMain.watched = some ⟨1⟩) = true := by
    decide +kernel
  obtain ⟨c, hexec, hcheck⟩ := Option.any_eq_true _ _ |>.mp hrun
  obtain ⟨hstate, hforwarded⟩ := of_decide_eq_true hcheck
  exact ⟨c, hexec, hstate, hforwarded,
    merge_keeps_others starting_oneAhead (by decide +kernel) hexec⟩

/-- Commit `2` is added while a merge is between its steps. The fast-forward refuses, and the merge,
rolled back, takes the commit off the branch. -/
theorem added_commit_taken_off : Starting intoMain oneAhead ∧ ∃ c,
    (machine intoMain).exec oneAhead (.enter merger (.merge 1 justForward) :: acts merger ⟨3⟩ 7 ++
      adding ++ acts merger ⟨3⟩ 15) = some c ∧
    (c.world.journal.view 1).state = some .rolledBack ∧
    ¬∀ commit ∈ c.world.outside.others, c.world.outside.Holds intoMain commit := by
  have hrun : ((machine intoMain).exec oneAhead (.enter merger (.merge 1 justForward) ::
      acts merger ⟨3⟩ 7 ++ adding ++ acts merger ⟨3⟩ 15)).any (fun c ↦
      (c.world.journal.view 1).state = some .rolledBack ∧
        c.world.outside.ref .source intoMain.watched = some ⟨0⟩ ∧
          ⟨2⟩ ∈ c.world.outside.others) = true := by
    decide +kernel
  obtain ⟨c, hexec, hcheck⟩ := Option.any_eq_true _ _ |>.mp hrun
  obtain ⟨hstate, hback, hadded⟩ := of_decide_eq_true hcheck
  refine ⟨starting_oneAhead, c, hexec, hstate, fun hkept ↦ ?_⟩
  obtain ⟨tip, htip, hreach⟩ := hkept ⟨2⟩ hadded
  obtain rfl : tip = ⟨0⟩ := Option.some.inj (htip.symm.trans hback)
  exact absurd hreach (by decide)

end Nodal.Merge
