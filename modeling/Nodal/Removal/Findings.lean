import Nodal.Removal.Covered

/-!
# The findings a refusal names

`lifecycle/uniqueness.rs` and `Assessment::findings`: the shape a refusal carries. It is a projection
of one reading and no second one, so a reading that is safe has no finding, and one that refuses
over its own work has at least one (`findings_eq_nil_iff`).
-/

set_option autoImplicit false

namespace Nodal.Removal

open Git

/-- Join what a finding lists. -/
def names (items : List String) : String :=
  ", ".intercalate items

/-! ### Why the remote could not answer -/

/-- The clause a reading adds about the branches it left unanswered. -/
def Unread.about (branches : String) : Unread → String
  | .older => "that reading was taken before this home wrote its own record of " ++ branches ++
      ", so for those branches it is the older one; fetch in the checkout and read again"
  | .unnamed => "that reading is the later one and does not name " ++ branches ++
      " at all, while this checkout still tracks the branch, so what the remote has now is not " ++
      "known: the remote may have dropped it, or the fetch may have asked about one branch by " ++
      "name. Fetch with --prune in the checkout and read again"

/-- What a refusal adds when nothing on this machine could check the home's own refs. -/
def UNREAD : String :=
  "this home's own remote-tracking refs record its own pushes, and nothing here read the remote to " ++
    "check them. Fetch in the project checkout and reclaim again."

/-- What one reading left unanswered, where it left a branch. -/
def unansweredIn (unobserved : List Unobserved) (reading : Unread) : String :=
  let branches := names
    ((unobserved.filter (·.reading = reading)).map fun one ↦ "/".intercalate one.branch)
  if branches = "" then "" else "; " ++ reading.about branches

/-- The clause a finding adds to say why the remote could not answer. -/
def Witness.because : Witness → Option String
  | noRemote | direct _ => none
  | checked readIn unobserved => some ("the newest reading of the remote here is " ++ names readIn ++
      ", and it does not reach them" ++ unansweredIn unobserved .older ++
      unansweredIn unobserved .unnamed)
  | unchecked => some UNREAD

/-! ### A finding -/

/-- One reason removing a home would lose something. -/
inductive Finding
  | uncommitted (count : ℕ) (sample : List RelPath)
  | untracked (count : ℕ) (sample : List RelPath)
  | unpushed (count : ℕ) (sample : List Oid) (remotes : List String) (witness : Witness)
  deriving DecidableEq, Repr

namespace Finding

/-- The word a finding is reported under. "On no remote" is a statement a run has to have earned. -/
def label : Finding → String
  | uncommitted _ _ => "uncommitted changes"
  | untracked _ _ => "untracked files"
  | unpushed _ _ _ witness =>
    if witness.settled then "commits on no remote"
    else "commits no current reading proves a remote has"

/-- How many things a finding is about. -/
def count : Finding → ℕ
  | uncommitted count _ | untracked count _ | unpushed count _ _ _ => count

/-- The first eight digits of a commit's name. -/
def short (oid : Oid) : String :=
  String.ofList (((Nat.toDigits 16 oid.value).leftpad 40 '0').take 8)

/-- What a finding lists. -/
def listed : Finding → String
  | uncommitted _ sample | untracked _ sample => names (sample.map fun path ↦ "/".intercalate path)
  | unpushed _ sample _ _ => names (sample.map short)

/-- One finding as one line. -/
def describe (finding : Finding) : String :=
  let more := finding.count - SAMPLE
  let tail := if more = 0 then "" else " and " ++ toString more ++ " more"
  let why := match finding with
    | unpushed _ _ _ witness => (witness.because.map ("; " ++ ·)).getD ""
    | _ => ""
  finding.label ++ " (" ++ toString finding.count ++ "): " ++ finding.listed ++ tail ++ why

/-- Every finding as one line. -/
def summarise (findings : List Finding) : String :=
  names (findings.map describe)

end Finding

/-- What the check found about one home. -/
structure Uniqueness where
  home : Path
  findings : List Finding
  deriving DecidableEq, Repr

/-! ### The projection -/

/-- One finding over the paths of the kinds it names, or nothing when the home holds none. -/
def Assessment.pathFinding (assessment : Assessment) (kinds : List Held)
    (build : ℕ → List RelPath → Finding) : Option Finding :=
  let kept := assessment.paths.filter (·.held ∈ kinds)
  let count := (kept.map PathGroup.count).sum
  if count = 0 then none else some (build count ((kept.flatMap PathGroup.sample).take SAMPLE))

/-- The one finding the commits make: the two groups a reclaim refuses over, read as one. -/
def Assessment.unpushed (assessment : Assessment) : Option Finding :=
  let kept := assessment.commits.filter (!·.copies.survives)
  let count := (kept.map CommitGroup.count).sum
  let witness := match kept.head?.map CommitGroup.copies with
    | some (.onlyHere witness) | some (.notChecked witness _) => witness
    | _ => .unchecked
  if count = 0 then none
  else some (.unpushed count ((kept.flatMap CommitGroup.sample).take SAMPLE)
    assessment.history.remotes witness)

/-- The assessment as the findings a destructive operation refuses with. -/
def Assessment.findings (assessment : Assessment) : List Finding :=
  [assessment.pathFinding [.uncommitted] .uncommitted,
    assessment.pathFinding [.untracked, .untrackedDeclared] .untracked,
    assessment.unpushed].reduceOption

/-! ### One reading, and no second predicate -/

variable {disk : Disk} {assessment : Assessment}

theorem pathFinding_eq_none_iff {kinds : List Held} {build : ℕ → List RelPath → Finding}
    (hcounts : ∀ group ∈ assessment.paths, group.count ≠ 0) :
    assessment.pathFinding kinds build = none ↔
      ∀ group ∈ assessment.paths, group.held ∉ kinds := by
  have hnone : assessment.pathFinding kinds build = none ↔
      ((assessment.paths.filter (·.held ∈ kinds)).map PathGroup.count).sum = 0 := by
    simp [Assessment.pathFinding]
  rw [hnone, List.sum_eq_zero_iff_forall_eq_nat]
  constructor
  · intro hzero group hgroup hkind
    refine hcounts group hgroup (hzero _ (List.mem_map_of_mem ?_))
    exact List.mem_filter.mpr ⟨hgroup, decide_eq_true hkind⟩
  · intro hkinds count hcount
    obtain ⟨group, hgroup, rfl⟩ := List.mem_map.mp hcount
    obtain ⟨hmem, hkind⟩ := List.mem_filter.mp hgroup
    exact absurd (of_decide_eq_true hkind) (hkinds group hmem)

/-- Each group of commits covers at least one. -/
theorem commits_count_ne_zero {group : CommitGroup} (h : group ∈ assessment.commits) :
    group.count ≠ 0 := by
  obtain ⟨part, _, hmade⟩ := List.mem_filterMap.mp h
  unfold commitGroup at hmade
  split at hmade
  · cases hmade
  · next hsome =>
    obtain rfl := Option.some.inj hmade
    exact fun hzero ↦ hsome (List.length_eq_zero_iff.mp hzero)

theorem unpushed_eq_none_iff :
    assessment.unpushed = none ↔ ∀ group ∈ assessment.commits, group.copies.survives = true := by
  have hnone : assessment.unpushed = none ↔
      ((assessment.commits.filter (!·.copies.survives)).map CommitGroup.count).sum = 0 := by
    simp [Assessment.unpushed]
  rw [hnone, List.sum_eq_zero_iff_forall_eq_nat]
  constructor
  · intro hzero group hgroup
    by_contra hlost
    refine commits_count_ne_zero hgroup (hzero _ (List.mem_map_of_mem ?_))
    exact List.mem_filter.mpr ⟨hgroup, by simp [hlost]⟩
  · intro hsurvive count hcount
    obtain ⟨group, hgroup, rfl⟩ := List.mem_map.mp hcount
    obtain ⟨hmem, hlost⟩ := List.mem_filter.mp hgroup
    simp [hsurvive group hmem] at hlost

theorem findings_eq_nil_iff (hcounts : ∀ group ∈ assessment.paths, group.count ≠ 0) :
    assessment.findings = [] ↔ (∀ group ∈ assessment.paths, group.held.refuses = false) ∧
      ∀ group ∈ assessment.commits, group.copies.survives = true := by
  have hnil : assessment.findings = [] ↔
      assessment.pathFinding [.uncommitted] .uncommitted = none ∧
        assessment.pathFinding [.untracked, .untrackedDeclared] .untracked = none ∧
        assessment.unpushed = none := by
    unfold Assessment.findings
    cases assessment.pathFinding [.uncommitted] .uncommitted <;>
      cases assessment.pathFinding [.untracked, .untrackedDeclared] .untracked <;>
      cases assessment.unpushed <;> simp [List.reduceOption]
  rw [hnil, pathFinding_eq_none_iff hcounts, pathFinding_eq_none_iff hcounts, unpushed_eq_none_iff,
    ← and_assoc]
  refine and_congr_left fun _ ↦ ⟨fun ⟨huncommitted, huntracked⟩ group hgroup ↦ ?_, fun h ↦ ?_⟩
  · have hnot := huncommitted group hgroup
    have hnor := huntracked group hgroup
    cases hheld : group.held <;> simp_all [Held.refuses]
  · constructor
    · intro group hgroup hkind
      have hkept := h group hgroup
      simp [List.mem_singleton.mp hkind, Held.refuses] at hkept
    · intro group hgroup hkind
      have hkept := h group hgroup
      rcases List.mem_pair.mp hkind with hheld | hheld <;> simp [hheld, Held.refuses] at hkept

/-- A removal that takes nothing else with it and reads no runtime is safe exactly when no group of
paths and no group of commits refuses. -/
theorem verdict_safe_iff {readAt : Seconds} (hruntime : assessment.runtime = none) :
    (assessment.verdict disk [] readAt).isSafe = true ↔
      (∀ group ∈ assessment.paths, group.held.refuses = false) ∧
        ∀ group ∈ assessment.commits, group.copies.survives = true := by
  rw [Assessment.verdict, judge_safe_iff]
  have hjoint : joint disk ⟨assessment.home, assessment.paths, assessment.commits⟩ [] = [] :=
    List.filterMap_eq_nil_iff.mpr fun group _ ↦ jointLoss_eq_none.mpr fun _ _ ↦ rfl
  have hpath (group : PathGroup) : pathLoss group = none ↔ group.held.refuses = false := by
    simp [pathLoss]
  have hsurvives (group : CommitGroup) : group.copies.survives = true ↔
      commitLoss group = none ∧ commitUnread group = none := by
    rw [commitLoss_eq_none, commitUnread_eq_none, Copies.survives]
    rcases group.copies.needs_cases with h | h | h <;> simp [h]
  simp only [refusals, unreads, Assessment.evidence, Assessment.lossSet, hjoint, List.append_nil,
    standingLoss, tableUnread, hruntime, ite_self, Option.bind_none, Option.toList_none,
    List.append_eq_nil_iff, List.filterMap_eq_nil_iff, hpath, hsurvives, and_assoc]
  exact and_congr_right fun _ ↦ ⟨fun h group hgroup ↦ ⟨h.1 group hgroup, h.2 group hgroup⟩,
    fun h ↦ ⟨fun group hgroup ↦ (h group hgroup).1, fun group hgroup ↦ (h group hgroup).2⟩⟩

/-- The reading a refusal is made of has a finding exactly when it is not safe. -/
theorem refusal_safe_iff {home : Path} {checkout : Option Path} {siblings : List Path}
    {readAt : Seconds} (h : assess disk (.refusal home checkout siblings) = .ok assessment) :
    (assessment.verdict disk [] readAt).isSafe = true ↔ assessment.findings = [] := by
  obtain ⟨status, found, _, _, rfl⟩ := assess_eq_ok h
  rw [verdict_safe_iff rfl, findings_eq_nil_iff]
  intro one hone
  rw [List.mem_append] at hone
  simp only [working, Input.refusal, Bool.false_eq_true, if_false, List.not_mem_nil, or_false,
    List.reduceOption_mem_iff] at hone
  have hcount (held : Held) (fate : Fate) (paths : List RelPath)
      (hmade : some one = group held fate paths) : one.count ≠ 0 := by
    unfold group at hmade
    split at hmade
    · cases hmade
    · next hsome =>
      obtain rfl := Option.some.inj hmade
      exact fun hzero ↦ hsome (List.length_eq_zero_iff.mp hzero)
  simp only [List.mem_cons, List.not_mem_nil, or_false] at hone
  rcases hone with hmade | hmade | hmade <;> exact hcount _ _ _ hmade

/-! ### What a person is told, and what the judgement refuses -/

/-- The evidence of a reading that asked about the work and about nothing else. -/
def Evidence.ofWork (readAt : Seconds) : Evidence :=
  ⟨none, [], readAt⟩

/-- What the judgement of the work alone refuses over: the paths and the commits, one entry a
group. -/
theorem refusals_ofWork {set : LossSet} {readAt : Seconds} :
    refusals disk set (.ofWork readAt) =
      set.paths.filterMap pathLoss ++ set.commits.filterMap commitLoss := by
  have hjoint : joint disk set [] = [] :=
    List.filterMap_eq_nil_iff.mpr fun group _ ↦ jointLoss_eq_none.mpr fun _ _ ↦ rfl
  simp [refusals, Evidence.ofWork, hjoint, standingLoss]

/-- What the judgement of the work alone could not read. -/
theorem unreads_ofWork {set : LossSet} {readAt : Seconds} :
    unreads set (.ofWork readAt) = set.commits.filterMap commitUnread := by
  simp [unreads, Evidence.ofWork, tableUnread]

/-- The paths of a group the judgement refused over. -/
def PathGroup.refused (group : PathGroup) : Bool :=
  (pathLoss group).isSome

/-- The commits of a group the judgement refused over, or said nobody had read. -/
def CommitGroup.refused (group : CommitGroup) : Bool :=
  (commitLoss group).isSome || (commitUnread group).isSome

theorem PathGroup.refused_eq (group : PathGroup) : group.refused = group.held.refuses := by
  unfold PathGroup.refused pathLoss
  cases group.held.refuses <;> rfl

theorem CommitGroup.refused_eq (group : CommitGroup) :
    group.refused = !group.copies.survives := by
  unfold CommitGroup.refused commitLoss commitUnread Copies.survives
  rcases group.copies.needs_cases with hneeds | hneeds | hneeds <;> simp [hneeds]

theorem judge_ofWork_safe_iff {set : LossSet} {readAt : Seconds} :
    (judge disk set (.ofWork readAt)).isSafe = true ↔
      (∀ group ∈ set.paths, group.refused = false) ∧
        ∀ group ∈ set.commits, group.refused = false := by
  rw [judge_safe_iff, refusals_ofWork, unreads_ofWork]
  simp only [List.append_eq_nil_iff, List.filterMap_eq_nil_iff, PathGroup.refused,
    CommitGroup.refused, Bool.or_eq_false_iff, Option.isSome_eq_false_iff, Option.isNone_iff_eq_none,
    and_assoc]
  refine and_congr_right fun _ ↦ ?_
  constructor
  · rintro ⟨hlost, hunread⟩ group hgroup
    exact ⟨hlost group hgroup, hunread group hgroup⟩
  · intro hrefused
    exact ⟨fun group hgroup ↦ (hrefused group hgroup).1,
      fun group hgroup ↦ (hrefused group hgroup).2⟩

/-- The count a finding over some kinds of paths states is the count of those groups. -/
theorem pathFinding_count {kinds : List Held} {build : ℕ → List RelPath → Finding}
    (hbuild : ∀ count sample, (build count sample).count = count) :
    ((assessment.pathFinding kinds build).toList.map Finding.count).sum =
      ((assessment.paths.filter (·.held ∈ kinds)).map PathGroup.count).sum := by
  dsimp only [Assessment.pathFinding]
  split_ifs with hzero
  · exact hzero.symm
  · simp [hbuild]

/-- The count the commits' finding states is the count of the groups that do not survive. -/
theorem unpushed_count : (assessment.unpushed.toList.map Finding.count).sum =
    ((assessment.commits.filter (!·.copies.survives)).map CommitGroup.count).sum := by
  dsimp only [Assessment.unpushed]
  split_ifs with hzero
  · exact hzero.symm
  · simp [Finding.count]

/-- The two kinds of finding over paths share the refused groups out between them. -/
theorem refused_split (paths : List PathGroup) :
    ((paths.filter PathGroup.refused).map PathGroup.count).sum =
      ((paths.filter (·.held ∈ [Held.uncommitted])).map PathGroup.count).sum +
        ((paths.filter (·.held ∈ [Held.untracked, .untrackedDeclared])).map
          PathGroup.count).sum := by
  induction paths with
  | nil => rfl
  | cons group paths ih =>
    simp only [List.filter_cons, PathGroup.refused_eq] at ih ⊢
    cases group.held <;> simp [Held.refuses, ih] <;> omega

/-- Reading an assessment for a person and judging it are one reading. There is no finding exactly
when the judgement of the work alone is safe, and the counts the findings state are the paths that
were refused and the commits that were refused or that nobody read, each group counted once.
Assumes: no group of paths is empty. -/
theorem findings_agree {readAt : Seconds} (hcounts : ∀ group ∈ assessment.paths, group.count ≠ 0) :
    (assessment.findings = [] ↔
        (judge disk assessment.lossSet (.ofWork readAt)).isSafe = true) ∧
      (assessment.findings.map Finding.count).sum =
        ((assessment.paths.filter PathGroup.refused).map PathGroup.count).sum +
          ((assessment.commits.filter CommitGroup.refused).map CommitGroup.count).sum := by
  constructor
  · rw [findings_eq_nil_iff hcounts, judge_ofWork_safe_iff]
    simp only [PathGroup.refused_eq, CommitGroup.refused_eq, Bool.not_eq_false',
      Assessment.lossSet]
  · have hparts : assessment.findings =
        (assessment.pathFinding [.uncommitted] .uncommitted).toList ++
          (assessment.pathFinding [.untracked, .untrackedDeclared] .untracked).toList ++
          assessment.unpushed.toList := by
      unfold Assessment.findings
      cases assessment.pathFinding [.uncommitted] .uncommitted <;>
        cases assessment.pathFinding [.untracked, .untrackedDeclared] .untracked <;>
        cases assessment.unpushed <;> rfl
    have hcommits : assessment.commits.filter CommitGroup.refused =
        assessment.commits.filter (!·.copies.survives) :=
      List.filter_congr fun group _ ↦ group.refused_eq
    rw [hparts, List.map_append, List.map_append, List.sum_append, List.sum_append,
      pathFinding_count fun _ _ ↦ rfl, pathFinding_count fun _ _ ↦ rfl, unpushed_count,
      refused_split, hcommits]

/-- A home with three changed files, two untracked ones and a commit only it has: the findings count
all six and the judgement is not safe. -/
private def sixOnlyHere : Assessment where
  home := "/home"
  moves := true
  history := ⟨[(.onlyHere .noRemote, [⟨7⟩])], [], 1, []⟩
  paths := [⟨.uncommitted, .trashed, 3, [], none⟩, ⟨.untracked, .trashed, 2, [], none⟩,
    ⟨.localState, .trashed, 9, [], some 40⟩]
  runtime := none

theorem findings_agree_six :
    (sixOnlyHere.findings = [] ↔ (judge (.ordinaries (fun _ ↦ []) (fun _ ↦ []) (fun _ ↦ none)
        fun _ _ ↦ none) sixOnlyHere.lossSet (.ofWork 0)).isSafe = true) ∧
      (sixOnlyHere.findings.map Finding.count).sum = 6 := by
  have hcounts : ∀ group ∈ sixOnlyHere.paths, group.count ≠ 0 := by decide
  obtain ⟨hagree, hsum⟩ := findings_agree hcounts
  exact ⟨hagree, hsum.trans (by decide)⟩

end Nodal.Removal
