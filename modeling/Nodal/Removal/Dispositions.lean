import Nodal.Removal.Covered

/-!
# One answer, with the dispositions and without them

A caller that does not ask for the dispositions takes a shorter path through the same stores. The
detailed path first takes out what the checkout keeps and sorts the rest; what a reading of the
remote proves is one more group of it, and that group refuses nothing. So both paths end in the same
answer, and the detailed groups are a partition of what the home holds beside the checkout.
-/

set_option autoImplicit false

namespace Nodal.Removal

open Git Foundation.Ancestry Foundation.Credit

/-- The same question, asking for the dispositions or not. -/
def Input.asking (input : Input) (dispositions : Bool) : Input :=
  { input with dispositions }

/-- Two answers of one kind, over the same losses and the same missing readings. -/
def Verdict.Alike : Verdict → Verdict → Prop
  | .safe _, .safe _ => True
  | .notSafe lost unread, .notSafe lost' unread' => lost = lost' ∧ unread = unread'
  | .unknown unread, .unknown unread' => unread = unread'
  | _, _ => False

variable {disk : Disk} {input : Input} {set : List Path} {readAt : Seconds} {commit : Oid}

/-! ### One judgement -/

/-- The judgement turns on what refuses and on what is missing alone. -/
theorem judge_alike {left right : LossSet} {evidence : Evidence}
    (hrefusals : refusals disk left evidence = refusals disk right evidence)
    (hunreads : unreads left evidence = unreads right evidence) :
    (judge disk left evidence).Alike (judge disk right evidence) := by
  dsimp only [judge]
  rw [hrefusals, hunreads]
  split_ifs <;> simp [Verdict.Alike]

/-- A group the remote proved adds nothing to the judgement. -/
theorem judged_of_proved {left right : LossSet} {more : List CommitGroup} (evidence : Evidence)
    (hpaths : left.paths = right.paths) (hcommits : right.commits = more ++ left.commits)
    (hmore : ∀ group ∈ more, ∃ witness, group.copies = .remoteProved witness) :
    (judge disk left evidence).Alike (judge disk right evidence) ∧
      joint disk left evidence.set = joint disk right evidence.set := by
  have hloss : more.filterMap commitLoss = [] := by
    refine List.filterMap_eq_nil_iff.mpr fun group hgroup ↦ ?_
    obtain ⟨witness, hcopies⟩ := hmore group hgroup
    simp [commitLoss, hcopies, Copies.needs]
  have hunread : more.filterMap commitUnread = [] := by
    refine List.filterMap_eq_nil_iff.mpr fun group hgroup ↦ ?_
    obtain ⟨witness, hcopies⟩ := hmore group hgroup
    simp [commitUnread, hcopies, Copies.needs]
  have hjoint : more.filterMap (jointLoss disk evidence.set) = [] := by
    refine List.filterMap_eq_nil_iff.mpr fun group hgroup ↦ ?_
    obtain ⟨witness, hcopies⟩ := hmore group hgroup
    simp [jointLoss, hcopies]
  have hsame : joint disk left evidence.set = joint disk right evidence.set := by
    simp [joint, hcommits, hjoint]
  refine ⟨judge_alike ?_ ?_, hsame⟩
  · simp [refusals, hpaths, hcommits, hloss, hsame]
  · simp [unreads, hcommits, hunread]

/-! ### The two paths -/

/-- The groups of the shorter path. -/
theorem brief_commits {parts : List (Copies × List Oid)} {unproved : List Oid} {witness : Witness}
    (hparts : parts = if unproved = [] then [] else
      refusing witness (input.copies disk unproved)) :
    parts.filterMap (fun part ↦ commitGroup part.1 part.2) =
      (refusing witness (input.copies disk unproved)).filterMap
        fun part ↦ commitGroup part.1 part.2 := by
  by_cases hempty : unproved = []
  · rw [hparts, if_pos hempty, hempty]
    refine (List.filterMap_eq_nil_iff.mpr fun part hpart ↦ ?_).symm
    simp [commitGroup, refusing_nil hpart]
  · rw [hparts, if_neg hempty]

/-- One part more is at most one group more. -/
theorem groups_cons {part : Copies × List Oid} {parts : List (Copies × List Oid)} :
    (part :: parts).filterMap (fun part ↦ commitGroup part.1 part.2) =
      (commitGroup part.1 part.2).toList ++
        parts.filterMap fun part ↦ commitGroup part.1 part.2 := by
  rw [List.filterMap_cons]
  cases commitGroup part.1 part.2 <;> rfl

/-- The two paths end in the same groups, but for what a reading of the remote proves.

Assumes: both paths answered. -/
theorem commits_of_modes {short long : History}
    (hshort : history disk (input.asking false) = .ok short)
    (hlong : history disk (input.asking true) = .ok long) :
    ∃ more, long.parts.filterMap (fun part ↦ commitGroup part.1 part.2) =
        more ++ short.parts.filterMap (fun part ↦ commitGroup part.1 part.2) ∧
      ∀ group ∈ more, ∃ witness, group.copies = .remoteProved witness := by
  obtain ⟨refs, unproved, hremotes, hrefs, hunproved, hparts⟩ := history_brief rfl hshort
  obtain ⟨refs', ours, hremotes', hrefs', hours, hparts'⟩ := history_detailed rfl hlong
  obtain rfl : refs = refs' := Except.ok.inj (hrefs.symm.trans hrefs')
  have hnamed : short.remotes = long.remotes := Except.ok.inj (hremotes.symm.trans hremotes')
  have hpart : ours.filter (· ∈ unproved) = unproved :=
    unproved_of_ours own_subset_tips hours hunproved
  rcases hparts' with ⟨rfl, hnone⟩ | ⟨_, unproved', hunproved', hsome⟩
  · -- nothing beside what the checkout keeps, so nothing the remote does not prove either
    have hempty : unproved = [] := hpart.symm
    exact ⟨[], by simp [hparts, hnone, hempty], by simp⟩
  · obtain rfl : unproved = unproved' := Except.ok.inj (hunproved.symm.trans hunproved')
    refine ⟨(commitGroup (.remoteProved (Witness.of long.remotes (input.outside disk refs)))
      (ours.filter (· ∉ unproved))).toList, ?_, ?_⟩
    · rw [brief_commits hparts, hnamed, hsome, groups_cons]
      rfl
    · intro group hgroup
      unfold commitGroup at hgroup
      split at hgroup
      · cases hgroup
      · obtain rfl := List.mem_singleton.mp hgroup
        exact ⟨_, rfl⟩

/-- The detailed groups are over what the checkout does not keep, each commit once.

Assumes: the detailed path answered. -/
theorem parts_perm {long : History} (hlong : history disk (input.asking true) = .ok long) :
    ∃ refs ours, disk.allRefs input.home = .ok refs ∧
      disk.among input.home (input.tips disk refs) (input.outside disk refs).own = .ok ours ∧
      (long.parts.flatMap Prod.snd).Perm ours := by
  obtain ⟨refs, ours, _, hrefs, hours, hparts⟩ := history_detailed rfl hlong
  refine ⟨refs, ours, hrefs, hours, ?_⟩
  rcases hparts with ⟨rfl, hnone⟩ | ⟨_, unproved, hunproved, hsome⟩
  · simp [hnone]
  · have hpart : ours.filter (· ∈ unproved) = unproved :=
      unproved_of_ours own_subset_tips hours hunproved
    have hsplit := List.filter_append_perm (fun commit ↦ decide (commit ∈ unproved)) ours
    rw [hpart] at hsplit
    rw [hsome, List.flatMap_cons]
    have hrest : ((refusing (Witness.of long.remotes (input.outside disk refs))
        ((input.asking true).copies disk unproved)).flatMap Prod.snd).Perm unproved := refusing_perm
    refine (List.perm_append_comm.trans (hrest.append_right _)).trans ?_
    simpa using hsplit

/-! ### The claim -/

/-- Asking for the dispositions changes no answer, and the groups it sorts the home into are a
partition of what the home's tips hold and no ref the checkout keeps does.

Assumes: both paths answered. -/
theorem modes_agree {brief detailed : Assessment}
    (hbrief : assess disk (input.asking false) = .ok brief)
    (hdetailed : assess disk (input.asking true) = .ok detailed) :
    (brief.verdict disk set readAt).Alike (detailed.verdict disk set readAt) ∧
      joint disk brief.lossSet set = joint disk detailed.lossSet set ∧
      (detailed.history.parts.flatMap Prod.snd).Nodup ∧
      ∃ repository, disk.repository input.home = some repository ∧
        ∀ commit, commit ∈ detailed.history.parts.flatMap Prod.snd ↔
          (∃ tip ∈ input.tips disk repository.refs, repository.Holds tip commit) ∧
            ¬∃ other ∈ (input.outside disk repository.refs).own, repository.Holds other commit := by
  obtain ⟨status, short, hstatus, hshort, hbrief⟩ := assess_eq_ok hbrief
  obtain ⟨status', long, hstatus', hlong, hdetailed⟩ := assess_eq_ok hdetailed
  obtain rfl : status = status' := Except.ok.inj (hstatus.symm.trans hstatus')
  obtain ⟨more, hcommits, hmore⟩ := commits_of_modes hshort hlong
  have hpaths : brief.lossSet.paths = detailed.lossSet.paths := by
    rw [hbrief, hdetailed]
    rfl
  have hevidence : brief.evidence set readAt = detailed.evidence set readAt := by
    rw [hbrief, hdetailed]
    rfl
  have hgroups : detailed.lossSet.commits = more ++ brief.lossSet.commits := by
    rw [hbrief, hdetailed]
    exact hcommits
  obtain ⟨halike, hjoint⟩ := judged_of_proved (brief.evidence set readAt) hpaths hgroups hmore
  rw [hevidence] at halike
  obtain ⟨refs, ours, hrefs, hours, hperm⟩ := parts_perm hlong
  obtain ⟨repository, hrepository, rfl⟩ := Disk.runOk_eq_ok hrefs
  have hparts : (detailed.history.parts.flatMap Prod.snd).Perm ours := by
    rw [hdetailed]
    exact hperm
  refine ⟨?_, hjoint, hparts.nodup_iff.mpr (Disk.among_nodup hours), repository, hrepository,
    fun commit ↦ ?_⟩
  · simp only [Assessment.verdict, hevidence]
    exact halike
  · rw [hparts.mem_iff]
    exact Disk.mem_among hrepository hours

/-! ### A branch one commit ahead of the checkout -/

private def aheadByOne (commit : Oid) : List Oid :=
  if commit = ⟨2⟩ then [⟨1⟩] else []

private def aheadHome : Repository aheadByOne :=
  .ordinary [⟨["refs", "heads", "main"], ⟨1⟩⟩, ⟨["refs", "heads", "topic"], ⟨2⟩⟩]
    (.symbolic ["refs", "heads", "topic"]) [⟨2⟩, ⟨1⟩] (by decide)

private def aheadDisk : Disk :=
  .ordinaries aheadByOne (fun _ ↦ [])
    (fun path ↦
      if path = "/home" then some aheadHome
      else if path = "/project" then some (.ordinary [⟨["refs", "heads", "main"], ⟨1⟩⟩]
        (.symbolic ["refs", "heads", "main"]) [⟨1⟩] (by decide))
      else none) fun _ _ ↦ none

private def aheadInput : Input :=
  .refusal "/home" (some "/project") []

theorem modes_agree_ahead : ∃ brief detailed : Assessment,
    (brief.verdict aheadDisk ["/home"] 0).Alike (detailed.verdict aheadDisk ["/home"] 0) ∧
      detailed.commits.length = 1 := by
  have hshort : (assess aheadDisk (aheadInput.asking false)).toOption.any (fun _ ↦ true) = true := by
    decide +kernel
  have hlong : (assess aheadDisk (aheadInput.asking true)).toOption.any
      (fun detailed ↦ detailed.commits.length = 1) = true := by decide +kernel
  obtain ⟨brief, hbrief, _⟩ := answered_of_any hshort
  obtain ⟨detailed, hdetailed, hone⟩ := answered_of_any hlong
  exact ⟨brief, detailed, (modes_agree hbrief hdetailed).1, of_decide_eq_true hone⟩

/-- A commit the checkout keeps as well is in no group of the detailed answer. -/
theorem kept_commit_in_no_group : ∃ detailed,
    assess aheadDisk (aheadInput.asking true) = .ok detailed ∧
      ∃ commit, InHome aheadDisk (aheadInput.asking true) commit ∧
        commit ∉ detailed.history.parts.flatMap Prod.snd := by
  have hanswers : (assess aheadDisk (aheadInput.asking true)).toOption.any
      (fun detailed ↦ (⟨1⟩ : Oid) ∉ detailed.history.parts.flatMap Prod.snd) = true := by
    decide +kernel
  obtain ⟨detailed, hdetailed, hnone⟩ := answered_of_any hanswers
  refine ⟨detailed, hdetailed, ⟨1⟩, ⟨aheadHome, rfl, ⟨2⟩, by decide, by decide, ?_⟩,
    of_decide_eq_true hnone⟩
  exact Relation.ReflTransGen.single ⟨by decide, by decide⟩

end Nodal.Removal
