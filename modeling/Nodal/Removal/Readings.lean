import Nodal.Removal.Kernel

/-!
What an assessment that answered has read. One lemma for each function of the reading: what a store
that vouched has shown, which readings a history was taken from, and what an answer of the kernel
says about every part of it. The modules after this one cite these and unfold no reading again.
-/

set_option autoImplicit false

namespace Nodal.Removal

open Git Foundation.Ancestry Foundation.Credit

variable {disk : Disk} {input : Input} {home : Path} {left holds : List Oid}
  {parts : List (Copies × List Oid)} {part : Copies × List Oid} {commit : Oid}

/-! ### One store -/

/-- What a store that vouches has shown: it is another directory, it admits nothing against itself,
its own refs reach what it vouches for, and the walk of that found every object. -/
theorem ask_eq_vouched {asking : Path × Role} (h : ask disk home asking left = .vouched holds) :
    disk.resolve asking.1 ≠ disk.resolve home ∧ admits disk asking.1 home = none ∧
      incomplete disk asking.1 home holds = none ∧
      ∃ reaches, disk.owned asking.1 left = .ok reaches ∧ reaches.reached = holds := by
  unfold ask at h
  split at h
  · cases h
  · next hother =>
    split at h
    · unfold doubted at h
      split at h <;> cases h
    · next hadmits =>
      split at h
      · cases h
      · next reaches hreaches =>
        split at h
        · cases h
        · split at h
          · unfold doubted at h
            split at h <;> cases h
          · next hcomplete =>
            obtain rfl := Reply.vouched.inj h
            obtain ⟨_, _, howned⟩ := Option.bind_eq_some_iff.mp hreaches
            refine ⟨hother, hadmits, hcomplete, reaches, ?_, rfl⟩
            cases hask : disk.owned asking.1 left with
            | ok found => simpa [hask, Except.toOption] using howned
            | error failure => simp [hask, Except.toOption] at howned

/-- Every store the reading asks is the checkout or one of the siblings. -/
theorem mem_stores {checkout : Option Path} {siblings : List Path} {asking : Path × Role}
    (h : asking ∈ stores checkout siblings) : asking.1 ∈ checkout.toList ++ siblings := by
  rcases List.mem_append.mp h with h | h
  · obtain ⟨path, hpath, rfl⟩ := List.mem_map.mp h
    exact List.mem_append_left _ hpath
  · obtain ⟨path, hpath, rfl⟩ := List.mem_map.mp h
    exact List.mem_append_right _ hpath

/-! ### The history -/

namespace Input

/-- What this machine can say exists outside the home. -/
abbrev outside (disk : Disk) (input : Input) (refs : List Ref) : Elsewhere :=
  elsewhere disk input.home (input.checkout.map (Checkout.read disk)) refs

/-- The tips of the home the reading starts from. -/
abbrev tips (disk : Disk) (input : Input) (refs : List Ref) : List Oid :=
  resolve disk input.home input.work refs

/-- What the stores answered about the commits nothing else proved. -/
abbrev copies (disk : Disk) (input : Input) (unproved : List Oid) : Found :=
  localCopies disk input.home input.checkout input.siblings unproved

end Input

/-- With nothing to look for, no disposition covers a commit. -/
theorem refusing_nil {witness : Witness}
    (hpart : part ∈ refusing witness (input.copies disk [])) : part.2 = [] := by
  have hleft : (settle (ask disk input.home) (stores input.checkout input.siblings) []).left = [] :=
    List.sublist_nil.mp (settle_left_sublist _ _)
  simp only [refusing, localCopies, List.map_map, List.mem_append, List.mem_map,
    List.mem_cons, List.not_mem_nil, or_false] at hpart
  rcases hpart with ⟨credit, hcredit, rfl⟩ | rfl | rfl
  · obtain ⟨_, turn, _, hturn, hne, _, _⟩ := held_turn hcredit
    exact absurd (List.sublist_nil.mp hturn) hne
  · simp [hleft]
  · simp [hleft]

/-- The readings a history was taken from, for a caller that did not ask for the dispositions. -/
theorem history_brief {found : History} (hmode : input.dispositions = false)
    (h : history disk input = .ok found) : ∃ refs unproved,
      disk.remotes input.home = .ok found.remotes ∧ disk.allRefs input.home = .ok refs ∧
      disk.among input.home (input.tips disk refs) (input.outside disk refs).tips = .ok unproved ∧
      found.parts = if unproved = [] then [] else
        refusing (Witness.of found.remotes (input.outside disk refs))
          (input.copies disk unproved) := by
  unfold history at h
  obtain ⟨remotes, hremotes, h⟩ := bind_eq_ok h
  obtain ⟨refs, hrefs, h⟩ := bind_eq_ok h
  simp only [hmode, Bool.false_eq_true, if_false] at h
  obtain ⟨unproved, hunproved, h⟩ := bind_eq_ok h
  by_cases hempty : unproved = []
  · simp only [hempty, if_true] at h
    cases h
    exact ⟨refs, unproved, hremotes, hrefs, hunproved, by simp [hempty]⟩
  · simp only [hempty, if_false] at h
    cases h
    exact ⟨refs, unproved, hremotes, hrefs, hunproved, by simp [hempty]⟩

/-- The readings a history was taken from, for a caller that asked for the dispositions. -/
theorem history_detailed {found : History} (hmode : input.dispositions = true)
    (h : history disk input = .ok found) : ∃ refs ours,
      disk.remotes input.home = .ok found.remotes ∧ disk.allRefs input.home = .ok refs ∧
      disk.among input.home (input.tips disk refs) (input.outside disk refs).own = .ok ours ∧
      ((ours = [] ∧ found.parts = []) ∨ (ours ≠ [] ∧ ∃ unproved,
        disk.among input.home (input.tips disk refs) (input.outside disk refs).tips = .ok unproved ∧
        found.parts =
          (.remoteProved (Witness.of found.remotes (input.outside disk refs)),
              ours.filter (· ∉ unproved)) ::
            refusing (Witness.of found.remotes (input.outside disk refs))
              (input.copies disk unproved))) := by
  unfold history at h
  obtain ⟨remotes, hremotes, h⟩ := bind_eq_ok h
  obtain ⟨refs, hrefs, h⟩ := bind_eq_ok h
  simp only [hmode, if_true] at h
  obtain ⟨ours, hours, h⟩ := bind_eq_ok h
  by_cases hempty : ours = []
  · simp only [hempty, if_true] at h
    cases h
    exact ⟨refs, ours, hremotes, hrefs, hours, Or.inl ⟨hempty, rfl⟩⟩
  · simp only [hempty, if_false] at h
    obtain ⟨unproved, hunproved, h⟩ := bind_eq_ok h
    cases h
    exact ⟨refs, ours, hremotes, hrefs, hours, Or.inr ⟨hempty, unproved, hunproved, rfl⟩⟩

theorem own_subset_tips {found : Elsewhere} : found.own ⊆ found.tips := by
  intro oid hoid
  exact mem_sorted.mpr (List.mem_append_left _ hoid)

/-- Every part is what a reading of the remote proved, or one of the stores' answers. -/
theorem part_cases {found : History} (h : history disk input = .ok found)
    (hpart : part ∈ found.parts) : (∃ witness, part.1 = .remoteProved witness) ∨
      ∃ unproved witness, part ∈ refusing witness (input.copies disk unproved) := by
  cases hmode : input.dispositions with
  | false =>
    obtain ⟨refs, unproved, _, _, _, hparts⟩ := history_brief hmode h
    rw [hparts] at hpart
    split at hpart
    · cases hpart
    · exact Or.inr ⟨unproved, _, hpart⟩
  | true =>
    obtain ⟨refs, ours, _, _, _, ⟨_, hnone⟩ | ⟨_, unproved, _, hparts⟩⟩ := history_detailed hmode h
    · rw [hnone] at hpart
      cases hpart
    · rw [hparts] at hpart
      rcases List.mem_cons.mp hpart with rfl | hpart
      · exact Or.inl ⟨_, rfl⟩
      · exact Or.inr ⟨unproved, _, hpart⟩

/-- Whatever a tip of the home holds, a tip found outside reaches it, or it is among what the stores
were asked about and every answer of theirs is in the report. -/
theorem history_accounts {found : History} (h : history disk input = .ok found) : ∃ refs,
    disk.allRefs input.home = .ok refs ∧ ∀ repository, disk.repository input.home = some repository →
      ∀ tip ∈ input.tips disk refs, ∀ commit, repository.Holds tip commit →
        (∃ other ∈ (input.outside disk refs).tips, repository.Holds other commit) ∨
          ∃ unproved witness, commit ∈ unproved ∧
            ∀ part ∈ refusing witness (input.copies disk unproved), part ∈ found.parts := by
  cases hmode : input.dispositions with
  | false =>
    obtain ⟨refs, unproved, _, hrefs, hunproved, hparts⟩ := history_brief hmode h
    refine ⟨refs, hrefs, fun repository hrepository tip htip commit hholds ↦ ?_⟩
    rcases Disk.among_covers hrepository hunproved htip hholds with hleft | hcovered
    · refine Or.inr ⟨unproved, Witness.of found.remotes (input.outside disk refs), hleft,
        fun part hpart ↦ ?_⟩
      rw [hparts, if_neg (List.ne_nil_of_mem hleft)]
      exact hpart
    · exact Or.inl hcovered
  | true =>
    obtain ⟨refs, ours, _, hrefs, hours, hparts⟩ := history_detailed hmode h
    refine ⟨refs, hrefs, fun repository hrepository tip htip commit hholds ↦ ?_⟩
    rcases hparts with ⟨rfl, _⟩ | ⟨_, unproved, hunproved, hparts⟩
    · rcases Disk.among_covers hrepository hours htip hholds with hleft | ⟨other, hother, hreach⟩
      · cases hleft
      · exact Or.inl ⟨other, own_subset_tips hother, hreach⟩
    · rcases Disk.among_covers hrepository hunproved htip hholds with hleft | hcovered
      · refine Or.inr ⟨unproved, Witness.of found.remotes (input.outside disk refs), hleft,
        fun part hpart ↦ ?_⟩
        rw [hparts]
        exact List.mem_cons_of_mem _ hpart
      · exact Or.inl hcovered

/-- A store credited with a commit vouched for it, and is another directory than the home. -/
theorem second_local_copy {unproved commits : List Oid} {heldBy : Path} {witness : Witness}
    (h : (.secondLocalCopy heldBy, commits) ∈ refusing witness (input.copies disk unproved)) :
    ∃ store ∈ stores input.checkout input.siblings, store.1 = heldBy ∧ ∃ turn holds,
      turn.Sublist unproved ∧ ask disk input.home store turn = .vouched holds ∧
        commits = turn.filter (· ∈ holds) := by
  simp only [refusing, List.mem_append, List.mem_map, List.mem_cons, List.not_mem_nil,
    or_false] at h
  rcases h with ⟨held, hheld, heq⟩ | heq | heq
  · obtain ⟨credit, hcredit, rfl⟩ := List.mem_map.mp hheld
    obtain ⟨hstore, turn, holds, hturn, _, hasked, htaken⟩ := held_turn hcredit
    obtain ⟨hcopies, rfl⟩ := Prod.mk.inj heq
    exact ⟨credit.1, hstore, Copies.secondLocalCopy.inj hcopies, turn, holds, hturn, hasked, htaken⟩
  · cases congrArg Prod.fst heq
  · have hcopies : Copies.secondLocalCopy heldBy = unreached witness := congrArg Prod.fst heq
    unfold unreached at hcopies
    split at hcopies <;> cases hcopies

/-! ### The assessment -/

/-- The readings an assessment was made of. -/
theorem assess_eq_ok {assessment : Assessment} (h : assess disk input = .ok assessment) :
    ∃ status found, disk.status input.home = .ok status ∧ history disk input = .ok found ∧
      assessment = {
        home := input.home
        moves := input.runtime.any (·.moves)
        history := found
        paths := working status input.fate input.declared ++
          (if input.state then
            ignored (((disk.repository input.home).map Repository.ignored).getD []) input.fate
          else [])
        runtime := input.runtime.map Attribution.reading } := by
  unfold assess at h
  obtain ⟨_, _, h⟩ := bind_eq_ok h
  obtain ⟨status, hstatus, h⟩ := bind_eq_ok h
  obtain ⟨found, hfound, h⟩ := bind_eq_ok h
  cases h
  exact ⟨status, found, hstatus, hfound, rfl⟩

/-- What holds of a group holds of a part that covers a commit. -/
theorem exists_group_iff (disposed : Copies → Prop) :
    (∃ group ∈ parts.filterMap fun part ↦ commitGroup part.1 part.2, disposed group.copies) ↔
      ∃ commit, ∃ part ∈ parts, commit ∈ part.2 ∧ disposed part.1 := by
  constructor
  · rintro ⟨group, hgroup, hdisposed⟩
    obtain ⟨part, hpart, hmade⟩ := List.mem_filterMap.mp hgroup
    unfold commitGroup at hmade
    split at hmade
    · cases hmade
    · next hsome =>
      obtain rfl := Option.some.inj hmade
      obtain ⟨commit, hcommit⟩ := List.exists_mem_of_ne_nil _ hsome
      exact ⟨commit, part, hpart, hcommit, hdisposed⟩
  · rintro ⟨commit, part, hpart, hcommit, hdisposed⟩
    exact ⟨⟨part.1, part.2.length, part.2.take SAMPLE⟩, List.mem_filterMap.mpr
      ⟨part, hpart, by simp [commitGroup, List.ne_nil_of_mem hcommit]⟩, hdisposed⟩

/-- Where no group of commits refuses and none says a reading is missing, each part survives or is
empty. -/
theorem parts_of_commits {assessment : Assessment}
    (hlost : ∀ group ∈ assessment.commits, commitLoss group = none)
    (hunread : ∀ group ∈ assessment.commits, commitUnread group = none) :
    ∀ part ∈ assessment.history.parts, part.2 = [] ∨ part.1.needs = none := by
  intro part hpart
  by_cases hempty : part.2 = []
  · exact Or.inl hempty
  · obtain ⟨commit, hcommit⟩ := List.exists_mem_of_ne_nil _ hempty
    have hgroup (needs : Needs) (hneeds : part.1.needs = some needs) :
        ∃ group ∈ assessment.commits, group.copies.needs = some needs :=
      (exists_group_iff fun copies ↦ copies.needs = some needs).mpr
        ⟨commit, part, hpart, hcommit, hneeds⟩
    rcases part.1.needs_cases with hnone | hneeds | hneeds
    · exact Or.inr hnone
    · obtain ⟨group, hgroup, hneeds⟩ := hgroup _ hneeds
      exact absurd hneeds (commitLoss_eq_none.mp (hlost group hgroup))
    · obtain ⟨group, hgroup, hneeds⟩ := hgroup _ hneeds
      exact absurd hneeds (commitUnread_eq_none.mp (hunread group hgroup))

/-- A safe answer is over paths none of which refuses, and over parts each of which survives or is
empty. -/
theorem safe_parts {assessment : Assessment} {set : List Path} {readAt : Seconds}
    (h : (assessment.verdict disk set readAt).isSafe = true) :
    (∀ group ∈ assessment.paths, group.held.refuses = false) ∧
      ∀ part ∈ assessment.history.parts, part.2 = [] ∨ part.1.needs = none := by
  obtain ⟨hrefusals, hunreads⟩ := judge_safe_iff.mp h
  simp only [refusals, List.append_eq_nil_iff, List.filterMap_eq_nil_iff] at hrefusals
  simp only [unreads, List.append_eq_nil_iff, List.filterMap_eq_nil_iff] at hunreads
  obtain ⟨⟨⟨hpaths, hcommits⟩, _⟩, _⟩ := hrefusals
  refine ⟨fun group hgroup ↦ ?_, parts_of_commits hcommits hunreads.1⟩
  have hnone := hpaths group hgroup
  by_contra hrefuses
  rw [Bool.not_eq_false] at hrefuses
  simp [pathLoss, hrefuses] at hnone

/-- What a report credits or leaves is everything the stores were asked about. -/
theorem mem_copies {unproved : List Oid} {commit : Oid} (h : commit ∈ unproved) :
    (∃ held ∈ (input.copies disk unproved).held, commit ∈ held.2) ∨
      commit ∈ (input.copies disk unproved).unchecked ∨
        commit ∈ (input.copies disk unproved).only := by
  have hsettled : ((settle (ask disk input.home) (stores input.checkout input.siblings)
      unproved).held.flatMap Prod.snd ++ (settle (ask disk input.home)
        (stores input.checkout input.siblings) unproved).left).Perm unproved := settle_perm _ _
  rcases List.mem_append.mp (hsettled.mem_iff.mpr h) with hheld | hleft
  · obtain ⟨credit, hcredit, hcommit⟩ := List.mem_flatMap.mp hheld
    exact Or.inl ⟨(credit.1.1, credit.2), List.mem_map_of_mem hcredit, hcommit⟩
  · right
    simp only [localCopies, List.mem_filter, hleft, true_and, decide_eq_true_eq]
    exact em _

/-- What nothing outside reaches is part of what the checkout does not keep. -/
theorem unproved_of_ours {home : Path} {tips own all ours unproved : List Oid} (hown : own ⊆ all)
    (hours : disk.among home tips own = .ok ours)
    (hunproved : disk.among home tips all = .ok unproved) :
    ours.filter (· ∈ unproved) = unproved := by
  by_cases htips : tips = []
  · simp only [Disk.among, htips, if_true, Except.ok.injEq] at hours hunproved
    rw [← hours, ← hunproved]
    rfl
  · obtain ⟨repository, hrepository, rfl⟩ :=
      (Disk.among_eq_ok hunproved).resolve_left fun h ↦ htips h.1
    obtain ⟨other, hother, rfl⟩ := (Disk.among_eq_ok hours).resolve_left fun h ↦ htips h.1
    obtain rfl : repository = other := Option.some.inj (hrepository.symm.trans hother)
    exact outside_filter_outside repository.newestFirst hown

/-- The stores' answers account for everything they were asked about, each commit once. -/
theorem refusing_perm {witness : Witness} {unproved : List Oid} :
    ((refusing witness (input.copies disk unproved)).flatMap Prod.snd).Perm unproved := by
  have hsettled : ((settle (ask disk input.home) (stores input.checkout input.siblings)
      unproved).held.flatMap Prod.snd ++ (settle (ask disk input.home)
        (stores input.checkout input.siblings) unproved).left).Perm unproved := settle_perm _ _
  have hsplit := List.filter_append_perm
    (fun commit ↦ decide (commit ∈ (settle (ask disk input.home)
      (stores input.checkout input.siblings) unproved).doubtful.flatMap (·.2.2)))
    (settle (ask disk input.home) (stores input.checkout input.siblings) unproved).left
  refine List.Perm.trans ?_ ((List.Perm.append_left _ hsplit).trans hsettled)
  simp [refusing, localCopies, List.flatMap_map]

/-- In either mode, what a report has beside what a reading of the remote proved is what the stores
answered.

Assumes: the history was read, and the part covers a commit and is not of the remote. -/
theorem mem_parts_iff {found : History} {refs : List Ref} {unproved : List Oid}
    (hfound : history disk input = .ok found) (hrefs : disk.allRefs input.home = .ok refs)
    (hunproved : disk.among input.home (input.tips disk refs) (input.outside disk refs).tips =
      .ok unproved) (hsome : part.2 ≠ []) (hproved : ∀ witness, part.1 ≠ .remoteProved witness) :
    part ∈ found.parts ↔ part ∈ refusing (Witness.of found.remotes (input.outside disk refs))
      (input.copies disk unproved) := by
  have hnothing {witness : Witness} (hempty : unproved = []) :
      part ∉ refusing witness (input.copies disk unproved) := by
    intro hpart
    rw [hempty] at hpart
    exact hsome (refusing_nil hpart)
  cases hmode : input.dispositions with
  | false =>
    obtain ⟨refs', unproved', _, hrefs', hunproved', hparts⟩ := history_brief hmode hfound
    obtain rfl : refs = refs' := Except.ok.inj (hrefs.symm.trans hrefs')
    obtain rfl : unproved = unproved' := Except.ok.inj (hunproved.symm.trans hunproved')
    by_cases hempty : unproved = []
    · rw [hparts, if_pos hempty]
      exact iff_of_false List.not_mem_nil (hnothing hempty)
    · rw [hparts, if_neg hempty]
  | true =>
    obtain ⟨refs', ours, _, hrefs', hours, hparts⟩ := history_detailed hmode hfound
    obtain rfl : refs = refs' := Except.ok.inj (hrefs.symm.trans hrefs')
    rcases hparts with ⟨rfl, hnone⟩ | ⟨_, unproved', hunproved', hparts⟩
    · rw [hnone]
      exact iff_of_false List.not_mem_nil
        (hnothing (unproved_of_ours own_subset_tips hours hunproved).symm)
    · obtain rfl : unproved = unproved' := Except.ok.inj (hunproved.symm.trans hunproved')
      rw [hparts, List.mem_cons]
      refine or_iff_right fun heq ↦ hproved _ (congrArg Prod.fst heq)

/-! ### Homes with one commit -/

private theorem same_ordered : NewestFirst (fun _ ↦ []) [(⟨1⟩ : Oid)] := by
  decide

/-- Every one of the homes has the one commit on a branch of its own. -/
def sameCommit (homes : List Path) : Disk :=
  .ordinaries (fun _ ↦ []) (fun _ ↦ [])
    (fun path ↦
      if path ∈ homes then
        some (.ordinary [⟨["refs", "heads", "topic"], ⟨1⟩⟩] (.symbolic ["refs", "heads", "topic"])
          [⟨1⟩] same_ordered)
      else none) fun _ _ ↦ none

/-- A store that is asked about one commit alone is steady. -/
theorem steady_singleton {ask : Path × Role → List Oid → Reply Lacking Oid} {store : Path × Role} :
    Steady ask [commit] store := by
  intro turn hturn c hc
  rcases List.sublist_singleton.mp hturn with rfl | rfl
  · cases hc
  · exact ⟨Iff.rfl, Iff.rfl⟩

end Nodal.Removal
