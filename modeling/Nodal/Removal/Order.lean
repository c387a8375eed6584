import Nodal.Removal.Readings

/-!
# The order in which the stores are listed

Each store is asked about what the ones before it left, and what it answers about a commit may turn
on which others it is asked about: a store that misses one object is doubted for every commit it was
asked about with it. Where no answer turns on that, the order changes neither the kind of the answer
nor the commits it names.
-/

set_option autoImplicit false

namespace Nodal.Removal

open Git Foundation.Ancestry Foundation.Credit

/-- The three answers. -/
inductive Kind
  | safe
  | notSafe
  | unknown
  deriving DecidableEq, Repr

/-- Which of the three an answer is. -/
def Verdict.kind : Verdict → Kind
  | .safe _ => .safe
  | .notSafe _ _ => .notSafe
  | .unknown _ => .unknown

/-- A commit is reported under a need. -/
def Reported (parts : List (Copies × List Oid)) (needs : Needs) (commit : Oid) : Prop :=
  ∃ part ∈ parts, commit ∈ part.2 ∧ part.1.needs = some needs

/-- The same question, with the siblings listed in another way. -/
def Input.listing (input : Input) (siblings : List Path) : Input :=
  { input with siblings }

variable {disk : Disk} {input : Input} {siblings : List Path} {unproved : List Oid} {readAt : Seconds}
  {commit : Oid}

/-! ### The kind of an answer -/

/-- An answer is of the kind its losses and its missing readings make it. -/
theorem judge_kind {set : LossSet} {evidence : Evidence} : (judge disk set evidence).kind =
    if refusals disk set evidence = [] then
      if unreads set evidence = [] then .safe else .unknown
    else .notSafe := by
  have hranked : ranked (refusals disk set evidence) ≠ [] ↔ refusals disk set evidence ≠ [] :=
    not_congr ranked_eq_nil
  dsimp only [judge]
  by_cases hlost : refusals disk set evidence = []
  · rw [if_neg (hranked.not.mpr (not_not.mpr hlost)), if_pos hlost]
    split_ifs <;> first | rfl | contradiction
  · rw [if_pos (hranked.mpr hlost), if_neg hlost]
    rfl

/-- For the home alone, a store that vouches is never one that goes. -/
theorem joint_alone {found : History} (hfound : history disk input = .ok found) :
    (found.parts.filterMap fun part ↦ commitGroup part.1 part.2).filterMap
      (jointLoss disk [input.home]) = [] := by
  refine List.filterMap_eq_nil_iff.mpr fun group hgroup ↦ jointLoss_eq_none.mpr ?_
  rintro heldBy hheldBy
  obtain ⟨commit, part, hpart, _, hcopies⟩ := (exists_group_iff fun copies ↦
    copies = .secondLocalCopy heldBy).mp ⟨group, hgroup, hheldBy⟩
  rcases part_cases hfound hpart with ⟨witness, hproved⟩ | ⟨unproved, witness, hrefusing⟩
  · cases hproved.symm.trans hcopies
  · have hsecond : (.secondLocalCopy heldBy, part.2) ∈ refusing witness (input.copies disk unproved) :=
      hcopies ▸ hrefusing
    obtain ⟨store, _, rfl, turn, holds, _, hasked, _⟩ := second_local_copy hsecond
    have hother : disk.resolve store.1 ≠ disk.resolve input.home := (ask_eq_vouched hasked).1
    simp [survives, hother.symm]

/-- The kind of an answer about the home alone turns on what stands in it, on its paths, and on what
its commits are reported under.

Assumes: both answers are of one home and one state of it. -/
theorem kind_alone {other : Input} {left right : Assessment}
    (hleft : history disk input = .ok left.history)
    (hright : history disk other = .ok right.history) (hhome : other.home = input.home)
    (hpaths : left.paths = right.paths)
    (hevidence : left.evidence [input.home] readAt = right.evidence [input.home] readAt)
    (hreported : ∀ needs commit, Reported left.history.parts needs commit ↔
      Reported right.history.parts needs commit) :
    (left.verdict disk [input.home] readAt).kind = (right.verdict disk [input.home] readAt).kind := by
  have hgroups (needs : Needs) : (∃ group ∈ left.commits, group.copies.needs = some needs) ↔
      ∃ group ∈ right.commits, group.copies.needs = some needs := by
    unfold Assessment.commits
    rw [exists_group_iff fun copies ↦ copies.needs = some needs,
      exists_group_iff fun copies ↦ copies.needs = some needs]
    exact exists_congr (hreported needs)
  have hlost : left.commits.filterMap commitLoss = [] ↔ right.commits.filterMap commitLoss = [] := by
    simp only [List.filterMap_eq_nil_iff, commitLoss_eq_none]
    simpa using not_congr (hgroups .uniqueLoss)
  have hunread : left.commits.filterMap commitUnread = [] ↔
      right.commits.filterMap commitUnread = [] := by
    simp only [List.filterMap_eq_nil_iff, commitUnread_eq_none]
    simpa using not_congr (hgroups .unknownEvidence)
  have hjoint : joint disk left.lossSet [input.home] = [] := joint_alone hleft
  have hjoint' : joint disk right.lossSet [input.home] = [] := hhome ▸ joint_alone hright
  have hrefusals : refusals disk left.lossSet (left.evidence [input.home] readAt) = [] ↔
      refusals disk right.lossSet (left.evidence [input.home] readAt) = [] := by
    simp only [refusals, List.append_eq_nil_iff]
    change (((left.paths.filterMap pathLoss = [] ∧ left.commits.filterMap commitLoss = []) ∧
      joint disk left.lossSet [input.home] = []) ∧ _) ↔
        (((right.paths.filterMap pathLoss = [] ∧ right.commits.filterMap commitLoss = []) ∧
          joint disk right.lossSet [input.home] = []) ∧ _)
    rw [hjoint, hjoint', hpaths, hlost]
  have hunreads : unreads left.lossSet (left.evidence [input.home] readAt) = [] ↔
      unreads right.lossSet (left.evidence [input.home] readAt) = [] := by
    simp only [unreads, List.append_eq_nil_iff]
    exact and_congr_left' hunread
  simp only [Assessment.verdict, judge_kind, ← hevidence, hrefusals, hunreads]

/-! ### What the stores leave -/

/-- What the stores are reported to leave, over steady stores: what none of them vouches for, in
doubt where one of them doubts it.

Assumes: no store's answer about a commit turns on the others. -/
theorem reported_refusing_iff {witness : Witness} {needs : Needs}
    (hsteady : ∀ store ∈ stores input.checkout input.siblings,
      Steady (ask disk input.home) unproved store) :
    Reported (refusing witness (input.copies disk unproved)) needs commit ↔
      (commit ∈ unproved ∧ ∀ store ∈ stores input.checkout input.siblings,
        commit ∉ (ask disk input.home store unproved).vouches) ∧
      ((∃ store ∈ stores input.checkout input.siblings,
          commit ∈ (ask disk input.home store unproved).doubts) ∧ needs = .unknownEvidence ∨
        (¬∃ store ∈ stores input.checkout input.siblings,
          commit ∈ (ask disk input.home store unproved).doubts) ∧
            (unreached witness).needs = some needs) := by
  have hleft : commit ∈ (settle (ask disk input.home) (stores input.checkout input.siblings)
      unproved).left ↔ commit ∈ unproved ∧ ∀ store ∈ stores input.checkout input.siblings,
        commit ∉ (ask disk input.home store unproved).vouches :=
    mem_settle_left hsteady (List.Sublist.refl _)
  have hdoubted (hmem : commit ∈ (settle (ask disk input.home)
      (stores input.checkout input.siblings) unproved).left) :
      commit ∈ (settle (ask disk input.home) (stores input.checkout input.siblings)
        unproved).doubtful.flatMap (·.2.2) ↔ ∃ store ∈ stores input.checkout input.siblings,
          commit ∈ (ask disk input.home store unproved).doubts := by
    rw [List.mem_flatMap]
    exact doubted_iff hsteady (List.Sublist.refl _) hmem
  rw [← hleft]
  constructor
  · rintro ⟨part, hpart, hmem, hneeds⟩
    simp only [refusing, List.mem_append, List.mem_map, List.mem_cons, List.not_mem_nil,
      or_false] at hpart
    rcases hpart with ⟨held, _, rfl⟩ | rfl | rfl
    · cases hneeds
    · obtain ⟨hmem, hdoubt⟩ := List.mem_filter.mp hmem
      exact ⟨hmem, Or.inl ⟨(hdoubted hmem).mp (of_decide_eq_true hdoubt),
        (Option.some.inj hneeds).symm⟩⟩
    · obtain ⟨hmem, hdoubt⟩ := List.mem_filter.mp hmem
      exact ⟨hmem, Or.inr ⟨fun h ↦ of_decide_eq_true hdoubt ((hdoubted hmem).mpr h), hneeds⟩⟩
  · rintro ⟨hmem, ⟨hdoubt, rfl⟩ | ⟨hdoubt, hneeds⟩⟩
    · exact ⟨_, List.mem_append_right _ List.mem_cons_self,
        List.mem_filter.mpr ⟨hmem, decide_eq_true ((hdoubted hmem).mpr hdoubt)⟩, rfl⟩
    · exact ⟨_, List.mem_append_right _ (List.mem_cons_of_mem _ List.mem_cons_self),
        List.mem_filter.mpr ⟨hmem, decide_eq_true fun h ↦ hdoubt ((hdoubted hmem).mp h)⟩, hneeds⟩

/-! ### Two listings of the siblings -/

/-- Listing the siblings in another way takes the same readings of the home. -/
theorem history_listing {found : History} (siblings : List Path)
    (h : history disk input = .ok found) : ∃ found',
      history disk (input.listing siblings) = .ok found' ∧ found'.remotes = found.remotes ∧
      ((found.parts = [] ∧ found'.parts = []) ∨ ∃ refs unproved,
        disk.allRefs input.home = .ok refs ∧
          disk.among input.home (input.tips disk refs) (input.outside disk refs).tips =
            .ok unproved) := by
  cases hmode : input.dispositions with
  | false =>
    obtain ⟨refs, unproved, hremotes, hrefs, hunproved, _⟩ := history_brief hmode h
    obtain ⟨found', hfound', hsame⟩ : ∃ found', history disk (input.listing siblings) = .ok found' ∧
        found'.remotes = found.remotes := by
      simp only [history, Input.listing, hremotes, hrefs, hmode, hunproved, bind, Except.bind,
        Bool.false_eq_true, if_false]
      split <;> exact ⟨_, rfl, rfl⟩
    exact ⟨found', hfound', hsame, Or.inr ⟨refs, unproved, hrefs, hunproved⟩⟩
  | true =>
    obtain ⟨refs, ours, hremotes, hrefs, hours, ⟨hempty, hnone⟩ | ⟨hsome, unproved, hunproved, _⟩⟩ :=
      history_detailed hmode h
    · obtain ⟨found', hfound', hsame, hnone'⟩ : ∃ found',
          history disk (input.listing siblings) = .ok found' ∧ found'.remotes = found.remotes ∧
            found'.parts = [] := by
        simp only [history, Input.listing, hremotes, hrefs, hmode, hours, hempty, bind, Except.bind,
          if_true]
        exact ⟨_, rfl, rfl, rfl⟩
      exact ⟨found', hfound', hsame, Or.inl ⟨hnone, hnone'⟩⟩
    · obtain ⟨found', hfound', hsame⟩ : ∃ found', history disk (input.listing siblings) = .ok found' ∧
          found'.remotes = found.remotes := by
        simp only [history, Input.listing, hremotes, hrefs, hmode, hours, hsome, hunproved, bind,
          Except.bind, if_true, if_false]
        exact ⟨_, rfl, rfl⟩
      exact ⟨found', hfound', hsame, Or.inr ⟨refs, unproved, hrefs, hunproved⟩⟩

theorem reported_parts_iff {found : History} {refs : List Ref} {needs : Needs}
    (hfound : history disk input = .ok found) (hrefs : disk.allRefs input.home = .ok refs)
    (hunproved : disk.among input.home (input.tips disk refs) (input.outside disk refs).tips =
      .ok unproved) : Reported found.parts needs commit ↔
        Reported (refusing (Witness.of found.remotes (input.outside disk refs))
          (input.copies disk unproved)) needs commit := by
  refine exists_congr fun part ↦ and_congr_left fun ⟨hmem, hneeds⟩ ↦ ?_
  refine mem_parts_iff hfound hrefs hunproved (List.ne_nil_of_mem hmem) fun witness hproved ↦ ?_
  simp [hproved, Copies.needs] at hneeds

/-- The order in which the siblings are listed changes neither the kind of the answer about a home
nor the commits it names.

Assumes: no store's answer about a commit turns on which others it is asked about. -/
theorem order_irrelevant {left : Assessment} (siblings : List Path) (hperm : input.siblings.Perm siblings)
    (hleft : assess disk input = .ok left)
    (hsteady : ∀ refs unproved, disk.allRefs input.home = .ok refs →
      disk.among input.home (input.tips disk refs) (input.outside disk refs).tips = .ok unproved →
        ∀ store ∈ stores input.checkout input.siblings,
          Steady (ask disk input.home) unproved store) :
    ∃ right, assess disk (input.listing siblings) = .ok right ∧
      (left.verdict disk [input.home] readAt).kind =
        (right.verdict disk [input.home] readAt).kind ∧
      ∀ needs commit, Reported left.history.parts needs commit ↔
        Reported right.history.parts needs commit := by
  obtain ⟨status, found, hstatus, hfound, hmade⟩ := assess_eq_ok hleft
  obtain ⟨found', hfound', hremotes, hparts⟩ := history_listing siblings hfound
  have hstores : ∀ store, store ∈ stores input.checkout siblings ↔
      store ∈ stores input.checkout input.siblings := fun store ↦
    ((hperm.map fun path ↦ (path, Role.sibling)).append_left _).mem_iff.symm
  have hreported : ∀ needs commit, Reported found.parts needs commit ↔
      Reported found'.parts needs commit := by
    intro needs commit
    rcases hparts with ⟨hnone, hnone'⟩ | ⟨refs, unproved, hrefs, hunproved⟩
    · rw [hnone, hnone']
    · have hsteadily := hsteady refs unproved hrefs hunproved
      have hsteadily' : ∀ store ∈ stores (input.listing siblings).checkout
          (input.listing siblings).siblings, Steady (ask disk input.home) unproved store :=
        fun store hstore ↦ hsteadily store ((hstores store).mp hstore)
      rw [reported_parts_iff hfound hrefs hunproved, reported_refusing_iff hsteadily,
        reported_parts_iff hfound' hrefs hunproved, reported_refusing_iff hsteadily', hremotes]
      -- both sides speak of the stores that are listed, and of no order of them
      simp only [Input.listing, hstores]
  have hopens : disk.openRepository input.home = .ok () := by
    unfold assess at hleft
    obtain ⟨_, hopens, _⟩ := bind_eq_ok hleft
    exact hopens
  refine ⟨{ left with history := found' }, ?_, ?_, ?_⟩
  · rw [hmade]
    simp only [assess, hfound', bind, Except.bind]
    simp only [Input.listing, hopens, hstatus]
    rfl
  · refine kind_alone (hmade ▸ hfound) hfound' rfl rfl rfl ?_
    rw [hmade]
    exact hreported
  · rw [hmade]
    exact hreported

/-! ### Two siblings, one of which misses an object -/

private theorem half_ordered : NewestFirst (fun _ ↦ []) [(⟨2⟩ : Oid)] := by
  decide

/-- A home with two unrelated commits, a sibling that has both and not the second one's work, and a
sibling that has the second. -/
private def halfCopied : Disk :=
  .ordinaries (fun _ ↦ []) (fun commit ↦ [⟨commit.value⟩])
    (fun path ↦
      if path = "/home" ∨ path = "/half" then
        some { Repository.ordinary [⟨["refs", "heads", "one"], ⟨1⟩⟩, ⟨["refs", "heads", "two"], ⟨2⟩⟩]
          (.symbolic ["refs", "heads", "one"]) [⟨1⟩, ⟨2⟩] (by decide) with
          objects := if path = "/home" then [⟨1⟩, ⟨2⟩] else [⟨1⟩] }
      else if path = "/whole" then
        some { Repository.ordinary [⟨["refs", "heads", "two"], ⟨2⟩⟩]
          (.symbolic ["refs", "heads", "two"]) [⟨2⟩] half_ordered with objects := [⟨2⟩] }
      else none) fun _ _ ↦ none

private def pairedWith (siblings : List Path) : Input :=
  .refusal "/home" none siblings

theorem order_irrelevant_pair : ∃ left right : Assessment,
    (left.verdict (sameCommit ["/home", "/one", "/two"]) ["/home"] 0).kind = .safe ∧
      (left.verdict (sameCommit ["/home", "/one", "/two"]) ["/home"] 0).kind =
        (right.verdict (sameCommit ["/home", "/one", "/two"]) ["/home"] 0).kind := by
  have hanswers : (assess (sameCommit ["/home", "/one", "/two"])
      (pairedWith ["/one", "/two"])).toOption.any (fun left ↦
        (left.verdict (sameCommit ["/home", "/one", "/two"]) ["/home"] 0).kind = .safe) = true := by
    decide +kernel
  obtain ⟨left, hleft, hsafe⟩ := answered_of_any hanswers
  have hsteady : ∀ refs unproved, (sameCommit ["/home", "/one", "/two"]).allRefs "/home" = .ok refs →
      (sameCommit ["/home", "/one", "/two"]).among "/home"
        ((pairedWith ["/one", "/two"]).tips (sameCommit ["/home", "/one", "/two"]) refs)
        ((pairedWith ["/one", "/two"]).outside (sameCommit ["/home", "/one", "/two"]) refs).tips =
          .ok unproved → ∀ store ∈ stores none ["/one", "/two"],
            Steady (ask (sameCommit ["/home", "/one", "/two"]) "/home") unproved store := by
    intro refs unproved hrefs hunproved store _
    obtain rfl : refs = [⟨["refs", "heads", "topic"], ⟨1⟩⟩] := (Except.ok.inj hrefs).symm
    obtain rfl : unproved = [⟨1⟩] := Except.ok.inj (hunproved.symm.trans (by decide +kernel))
    exact steady_singleton
  obtain ⟨right, _, hkind, _⟩ :=
    order_irrelevant ["/two", "/one"] (List.Perm.swap _ _ _) hleft hsteady
  exact ⟨left, right, of_decide_eq_true hsafe, hkind⟩

theorem order_matters : ∃ left right : Assessment,
    assess halfCopied (pairedWith ["/whole", "/half"]) = .ok left ∧
      assess halfCopied (pairedWith ["/half", "/whole"]) = .ok right ∧
      (left.verdict halfCopied ["/home"] 0).kind = .safe ∧
      (right.verdict halfCopied ["/home"] 0).kind = .unknown := by
  have hleft : (assess halfCopied (pairedWith ["/whole", "/half"])).toOption.any
      (fun left ↦ (left.verdict halfCopied ["/home"] 0).kind = .safe) = true := by decide +kernel
  have hright : (assess halfCopied (pairedWith ["/half", "/whole"])).toOption.any
      (fun right ↦ (right.verdict halfCopied ["/home"] 0).kind = .unknown) = true := by
    decide +kernel
  obtain ⟨left, hleft, hsafe⟩ := answered_of_any hleft
  obtain ⟨right, hright, hunknown⟩ := answered_of_any hright
  exact ⟨left, right, hleft, hright, of_decide_eq_true hsafe, of_decide_eq_true hunknown⟩

end Nodal.Removal
