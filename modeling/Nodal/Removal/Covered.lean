import Mathlib.Data.List.ReduceOption
import Nodal.Removal.Readings

/-!
# A safe answer, and where every commit of the home also is

What a safe answer says of a home: its working tree carries no work, and each of its commits is
reached by a ref the checkout keeps, by a tip read from the remote, or by a ref another store keeps.
The commits of a home are those of its own refs, of the ref a trash row names and of its `HEAD`.

`HEAD` is the one of these that is read by a process of its own, and a reading of it that fails is
taken for a `HEAD` that names nothing. So the answer holds where that reading answered, or where the
refs already reach whatever `HEAD` does.
-/

set_option autoImplicit false

namespace Nodal.Removal

open Git Foundation.Ancestry Foundation.Credit

/-! ### What a safe answer is about -/

/-- Nothing in the working tree but ignored paths and the files Nodal wrote itself. -/
def Clean (disk : Disk) (home : Path) : Prop :=
  ∃ repository, disk.repository home = some repository ∧
    ∀ entry ∈ repository.status, entry.isUncommitted = true → isNodalsOwn entry = true

/-- What the home's own refs and the ref a trash row names point at. -/
def workTips {history : Oid → List Oid} (repository : Repository history) (work : Option RefName) :
    List Oid :=
  (repository.refs.filter (isItsOwn ·.name)).map Ref.oid ++
    (work.bind fun name ↦ repository.refs.find? (·.name = name)).toList.map Ref.oid

/-- A commit the home reaches from its own refs, from the recorded one, or from `HEAD`. -/
def InHome (disk : Disk) (input : Input) (commit : Oid) : Prop :=
  ∃ repository, disk.repository input.home = some repository ∧
    ∃ tip ∈ workTips repository input.work ++ repository.headCommit.toList,
      repository.Holds tip commit

/-- A commit that is somewhere else: behind a ref of the checkout, behind a tip read from the
remote, or behind a ref of a store that is not the home. -/
def Covered (disk : Disk) (input : Input) (commit : Oid) : Prop :=
  (∃ checkout repository, input.checkout = some checkout ∧
      disk.repository checkout = some repository ∧
      ∃ tip ∈ repository.ownRefs.map Ref.oid, Descends disk.history tip commit) ∨
    (∃ checkout tip, input.checkout = some checkout ∧ ReadFromRemote disk input.home checkout tip ∧
      Descends disk.history tip commit) ∨
    ∃ store ∈ input.checkout.toList ++ input.siblings,
      disk.resolve store ≠ disk.resolve input.home ∧
      ∃ repository, disk.repository store = some repository ∧
        ∃ tip ∈ repository.ownTips, repository.Holds tip commit

/-- The reading of `HEAD` answers, or the refs already reach whatever it would say. -/
def HeadRead (disk : Disk) (input : Input) : Prop :=
  ∀ repository, disk.repository input.home = some repository → ∀ head ∈ repository.headCommit,
    disk.fails input.home .revParseHead = none ∨
      ∀ commit, repository.Holds head commit →
        ∃ tip ∈ workTips repository input.work, repository.Holds tip commit

variable {disk : Disk} {input : Input} {repository : Repository disk.history} {commit : Oid}

/-! ### The tips -/

theorem workTips_subset :
    workTips repository input.work ⊆ input.tips disk repository.refs := by
  intro tip htip
  refine mem_sorted.mpr ?_
  rcases List.mem_append.mp htip with hown | hrecorded
  · exact List.mem_append_left _ (List.mem_append_left _ hown)
  · exact List.mem_append_right _ hrecorded

/-- A `HEAD` that names a listed ref of the home's own is among the tips. -/
theorem head_of_checkedOut {names : List RefName} {head : Oid}
    (hrepository : disk.repository input.home = some repository)
    (h : checkedOut disk input.home names = true) (hhead : repository.headCommit = some head) :
    ∃ ref ∈ repository.refs, ref.name ∈ names ∧ ref.oid = head := by
  unfold checkedOut at h
  split at h
  · next name hfile =>
    unfold Disk.headFile at hfile
    split at hfile
    · have hsymbolic : repository.head = .symbolic name := by
        cases hran : disk.runOk input.home .headFile Repository.head with
        | error failure => simp [hran, Except.toOption] at hfile
        | ok found =>
          obtain ⟨other, hother, rfl⟩ := Disk.runOk_eq_ok hran
          obtain rfl : repository = other := Option.some.inj (hrepository.symm.trans hother)
          simpa [hran, Except.toOption] using hfile
      rw [Repository.headCommit, hsymbolic] at hhead
      obtain ⟨ref, href, rfl⟩ := Option.map_eq_some_iff.mp hhead
      have hname : ref.name = name := by simpa using List.find?_some href
      exact ⟨ref, List.mem_of_find?_eq_some href, hname ▸ of_decide_eq_true h, rfl⟩
    · cases hfile
  · cases h

/-- A `HEAD` whose reading answers is among the tips. -/
theorem head_mem_tips {head : Oid} (hrepository : disk.repository input.home = some repository)
    (hfails : disk.fails input.home .revParseHead = none)
    (hhead : repository.headCommit = some head) : head ∈ input.tips disk repository.refs := by
  refine mem_sorted.mpr (List.mem_append_left _ ?_)
  by_cases hchecked : checkedOut disk input.home
      ((repository.refs.filter (isItsOwn ·.name)).map Ref.name) = true
  · obtain ⟨ref, href, hname, rfl⟩ := head_of_checkedOut hrepository hchecked hhead
    obtain ⟨own, hown, heq⟩ := List.mem_map.mp hname
    have hits : isItsOwn ref.name = true := heq ▸ (List.mem_filter.mp hown).2
    exact List.mem_append_left _ (List.mem_map_of_mem (List.mem_filter.mpr ⟨href, hits⟩))
  · have hanswer : disk.revParseHead input.home = .ok head := by
      simp [Disk.revParseHead, Disk.runOk_of_repository hfails hrepository, hhead, bind,
        Except.bind]
    refine List.mem_append_right _ ?_
    rw [if_neg hchecked, hanswer]
    exact List.mem_singleton.mpr rfl

/-- The tips reach every commit of the home.

Assumes: the reading of `HEAD` answers, or the refs reach whatever it would say. -/
theorem tips_reach (hrepository : disk.repository input.home = some repository)
    (hhead : HeadRead disk input) (hcommit : InHome disk input commit) :
    ∃ tip ∈ input.tips disk repository.refs, repository.Holds tip commit := by
  obtain ⟨other, hother, tip, htip, hholds⟩ := hcommit
  obtain rfl : repository = other := Option.some.inj (hrepository.symm.trans hother)
  rcases List.mem_append.mp htip with hwork | hnamed
  · exact ⟨tip, workTips_subset hwork, hholds⟩
  · have hnamed : repository.headCommit = some tip := Option.mem_toList.mp hnamed
    rcases hhead repository hrepository tip hnamed with hfails | hreached
    · exact ⟨tip, head_mem_tips hrepository hfails hnamed, hholds⟩
    · obtain ⟨work, hwork, hreach⟩ := hreached commit hholds
      exact ⟨work, workTips_subset hwork, hreach⟩

/-- The tips reach every commit of the home exactly when the reading of `HEAD` answers, or has
nothing to add. -/
theorem tips_reach_iff (hrepository : disk.repository input.home = some repository) :
    (∀ commit, InHome disk input commit →
      ∃ tip ∈ input.tips disk repository.refs, repository.Holds tip commit) ↔
        HeadRead disk input := by
  refine ⟨fun h ↦ ?_, fun hhead commit ↦ tips_reach hrepository hhead⟩
  intro other hother head hhead
  obtain rfl : repository = other := Option.some.inj (hrepository.symm.trans hother)
  by_cases hfails : disk.fails input.home .revParseHead = none
  · exact Or.inl hfails
  · right
    intro commit hholds
    obtain ⟨tip, htip, hreach⟩ := h commit ⟨repository, hrepository, head,
      List.mem_append_right _ (Option.mem_toList.mpr hhead), hholds⟩
    refine ⟨tip, ?_, hreach⟩
    have hanswer : (disk.revParseHead input.home).toOption = none := by
      obtain ⟨failure, hfailure⟩ := Option.ne_none_iff_exists'.mp hfails
      cases failure <;>
        simp [Disk.revParseHead, Disk.runOk, Disk.ran, hfailure, bind, Except.bind, Except.toOption]
    have htips := mem_sorted.mp htip
    rw [hanswer] at htips
    simpa [workTips] using htips

/-! ### What covers a commit -/

theorem covered_of_elsewhere {refs : List Ref} {other : Oid}
    (hother : other ∈ (input.outside disk refs).tips) (hreach : Descends disk.history other commit) :
    Covered disk input commit := by
  cases hcheckout : input.checkout with
  | none =>
    rw [Input.outside, hcheckout] at hother
    simp [elsewhere, Elsewhere.tips, union] at hother
  | some checkout =>
    rw [Input.outside, hcheckout] at hother
    rcases List.mem_append.mp (mem_sorted.mp hother) with hown | hremote
    · obtain ⟨repository, hrepository, htip⟩ := own_of_elsewhere hown
      exact Or.inl ⟨checkout, repository, hcheckout, hrepository, other, htip, hreach⟩
    · obtain ⟨tip, htip, hdescends⟩ := remote_of_elsewhere hremote
      exact Or.inr (Or.inl ⟨checkout, tip, hcheckout, htip, hdescends.trans hreach⟩)

theorem covered_of_held {unproved : List Oid} {held : Path × List Oid}
    (hheld : held ∈ (input.copies disk unproved).held) (hcommit : commit ∈ held.2) :
    Covered disk input commit := by
  obtain ⟨credit, hcredit, rfl⟩ := List.mem_map.mp hheld
  obtain ⟨hstore, turn, holds, _, _, hasked, htaken⟩ := held_turn hcredit
  obtain ⟨hother, _, _, reaches, howned, rfl⟩ := ask_eq_vouched hasked
  rw [htaken] at hcommit
  obtain ⟨repository, hrepository, hholds⟩ :=
    Disk.owned_eq_ok howned (of_decide_eq_true (List.mem_filter.mp hcommit).2)
  exact Or.inr (Or.inr ⟨credit.1.1, mem_stores hstore, hother, repository, hrepository, hholds⟩)

/-- A group of paths that would refuse is empty where nothing refuses. -/
theorem paths_empty (held : Held) {fate : Fate} {paths : List RelPath}
    {groups : List (Option PathGroup)}
    (h : ∀ one ∈ groups.reduceOption, one.held.refuses = false) (hheld : held.refuses = true)
    (hgroup : group held fate paths ∈ groups) : paths = [] := by
  by_contra hpaths
  have hmem : ⟨held, fate, paths.length, paths.take SAMPLE, none⟩ ∈ groups.reduceOption := by
    rw [List.reduceOption_mem_iff]
    simpa [group, hpaths] using hgroup
  exact absurd (h _ hmem) (by simp [hheld])

theorem path_mem_pathsWhere {status : List Entry} {entry : Entry} (wanted : Entry → Bool)
    (hentry : entry ∈ status) (hwanted : wanted entry = true) (hforeign : isNodalsOwn entry = false) :
    entry.path ∈ pathsWhere status wanted :=
  List.mem_map_of_mem (List.mem_filter.mpr ⟨hentry, by simp [hwanted, hforeign]⟩)

/-- No path carries work where no group of paths refuses. -/
theorem clean_of_working {status : List Entry} {fate : Fate} {declared : List RelPath}
    (h : ∀ group ∈ working status fate declared, group.held.refuses = false) :
    ∀ entry ∈ status, entry.isUncommitted = true → isNodalsOwn entry = true := by
  have htracked := paths_empty .uncommitted h rfl List.mem_cons_self
  have huntracked := paths_empty .untracked h rfl (List.mem_cons_of_mem _ List.mem_cons_self)
  have hdeclared := paths_empty .untrackedDeclared h rfl
    (List.mem_cons_of_mem _ (List.mem_cons_of_mem _ List.mem_cons_self))
  intro entry hentry huncommitted
  by_contra hforeign
  rw [Bool.not_eq_true] at hforeign
  cases hstate : entry.state with
  | ignored => simp [Entry.isUncommitted, hstate] at huncommitted
  | tracked =>
    have hpath := path_mem_pathsWhere
      (fun entry : Entry ↦ entry.state = .tracked ∨ entry.state = .unmerged) hentry
      (by simp [hstate]) hforeign
    exact List.not_mem_nil (htracked ▸ hpath)
  | unmerged =>
    have hpath := path_mem_pathsWhere
      (fun entry : Entry ↦ entry.state = .tracked ∨ entry.state = .unmerged) hentry
      (by simp [hstate]) hforeign
    exact List.not_mem_nil (htracked ▸ hpath)
  | untracked =>
    have hpath := path_mem_pathsWhere (fun entry : Entry ↦ entry.state = .untracked) hentry
      (by simp [hstate]) hforeign
    by_cases hregenerable : regenerable entry.path declared = true
    · have hkept : entry.path ∈ (pathsWhere status fun entry ↦ entry.state = .untracked).filter
          (regenerable · declared) := List.mem_filter.mpr ⟨hpath, hregenerable⟩
      exact List.not_mem_nil (hdeclared ▸ hkept)
    · have hkept : entry.path ∈ (pathsWhere status fun entry ↦ entry.state = .untracked).filter
          (!regenerable · declared) := List.mem_filter.mpr ⟨hpath, by simp [hregenerable]⟩
      exact List.not_mem_nil (huntracked ▸ hkept)

/-! ### The claim a safe answer makes -/

/-- What a tip of the reading reaches is somewhere else where each part of the history survives or is
empty. -/
theorem covered_of_tip {found : History} {tip : Oid} (hfound : history disk input = .ok found)
    (hparts : ∀ part ∈ found.parts, part.2 = [] ∨ part.1.needs = none)
    (hrepository : disk.repository input.home = some repository)
    (htip : tip ∈ input.tips disk repository.refs) (hholds : repository.Holds tip commit) :
    Covered disk input commit := by
  obtain ⟨refs, hrefs, haccounts⟩ := history_accounts hfound
  obtain ⟨other, hother, rfl⟩ := Disk.runOk_eq_ok hrefs
  obtain rfl : repository = other := Option.some.inj (hrepository.symm.trans hother)
  rcases haccounts repository hrepository tip htip commit hholds with
    ⟨other, hother, hreach⟩ | ⟨unproved, witness, hunproved, hreported⟩
  · exact covered_of_elsewhere hother hreach.descends
  · -- whatever a store neither credited nor left is refused, so every commit is credited
    have hempty (copies : Copies) (commits : List Oid) (hneeds : copies.needs ≠ none)
        (hmem : (copies, commits) ∈ refusing witness (input.copies disk unproved)) :
        commits = [] := (hparts _ (hreported _ hmem)).resolve_right hneeds
    rcases mem_copies hunproved with ⟨held, hheld, hcredited⟩ | hunchecked | honly
    · exact covered_of_held hheld hcredited
    · have hnone := hempty (unchecked witness (input.copies disk unproved).unread)
        (input.copies disk unproved).unchecked (by simp [unchecked, Copies.needs])
        (by simp [refusing])
      exact absurd hunchecked (by rw [hnone]; exact List.not_mem_nil)
    · have hnone := hempty (unreached witness) (input.copies disk unproved).only
        (by unfold unreached; split <;> simp [Copies.needs]) (by simp [refusing])
      exact absurd honly (by rw [hnone]; exact List.not_mem_nil)

/-- Each commit of the home is somewhere else where each part of its history survives or is empty.

Assumes: the reading of `HEAD` answers, or the refs already reach whatever it would say. -/
theorem covered_of_parts {found : History} (hhead : HeadRead disk input)
    (hfound : history disk input = .ok found)
    (hparts : ∀ part ∈ found.parts, part.2 = [] ∨ part.1.needs = none)
    (hcommit : InHome disk input commit) : Covered disk input commit := by
  have ⟨repository, hrepository, _⟩ := hcommit
  obtain ⟨tip, htip, hholds⟩ := tips_reach hrepository hhead hcommit
  exact covered_of_tip hfound hparts hrepository htip hholds

/-- A safe answer is over a working tree that carries no work and commits each of which is somewhere
else.

Assumes: the reading of `HEAD` answers, or the refs already reach whatever it would say. -/
theorem safe_covered {assessment : Assessment} {set : List Path} {readAt : Seconds}
    (hhead : HeadRead disk input) (hassess : assess disk input = .ok assessment)
    (hsafe : (assessment.verdict disk set readAt).isSafe = true) :
    Clean disk input.home ∧ ∀ commit, InHome disk input commit → Covered disk input commit := by
  obtain ⟨status, found, hstatus, hfound, rfl⟩ := assess_eq_ok hassess
  obtain ⟨hrefuses, hparts⟩ := safe_parts hsafe
  constructor
  · obtain ⟨repository, hrepository, rfl⟩ := Disk.runOk_eq_ok hstatus
    exact ⟨repository, hrepository,
      clean_of_working fun group hgroup ↦ hrefuses group (List.mem_append_left _ hgroup)⟩
  · exact fun commit hcommit ↦ covered_of_parts hhead hfound hparts hcommit

/-! ### A detached `HEAD` nobody could read -/

private def oneParent (commit : Oid) : List Oid :=
  if commit = ⟨2⟩ then [⟨1⟩] else []

/-- A home on no branch, one commit ahead of the branch it left, beside the project's checkout. -/
private def detachedHome (project : Repository oneParent)
    (fails : Path → Command → Option Failure) : Disk :=
  .ordinaries oneParent (fun _ ↦ [])
    (fun path ↦
      if path = "/home" then some (.ordinary [⟨["refs", "heads", "main"], ⟨1⟩⟩] (.detached ⟨2⟩)
        [⟨2⟩, ⟨1⟩] (by decide))
      else if path = "/project" then some project
      else none) fails

/-- A checkout that has no more than the branch the home left. -/
private def behind : Repository oneParent :=
  .ordinary [⟨["refs", "heads", "main"], ⟨1⟩⟩] (.symbolic ["refs", "heads", "main"]) [⟨1⟩] (by decide)

/-- A checkout whose branch has the home's commit. -/
private def caughtUp : Repository oneParent :=
  .ordinary [⟨["refs", "heads", "main"], ⟨2⟩⟩] (.symbolic ["refs", "heads", "main"]) [⟨2⟩, ⟨1⟩]
    (by decide)

private def reclaimed : Input :=
  .refusal "/home" (some "/project") []

/-- `git rev-parse HEAD` does not start in the home. -/
private def noRevParse (path : Path) (command : Command) : Option Failure :=
  if path = "/home" ∧ command = .revParseHead then some .other else none

theorem safe_covered_caughtUp :
    Clean (detachedHome caughtUp fun _ _ ↦ none) "/home" ∧
      ∀ commit, InHome (detachedHome caughtUp fun _ _ ↦ none) reclaimed commit →
        Covered (detachedHome caughtUp fun _ _ ↦ none) reclaimed commit := by
  have hanswers : (assess (detachedHome caughtUp fun _ _ ↦ none) reclaimed).toOption.any
      (fun assessment ↦ (assessment.verdict (detachedHome caughtUp fun _ _ ↦ none)
        ["/home"] 0).isSafe) = true := by decide +kernel
  obtain ⟨assessment, hassess, hsafe⟩ := answered_of_any hanswers
  exact safe_covered (fun _ _ _ _ ↦ Or.inl rfl) hassess hsafe

/-- The commit on the detached `HEAD` is nowhere but in the home. -/
private theorem detached_uncovered :
    ¬Covered (detachedHome behind noRevParse) reclaimed ⟨2⟩ := by
  rintro (⟨checkout, repository, hcheckout, hrepository, tip, htip, hreach⟩ |
    ⟨checkout, tip, hcheckout, hremote, _⟩ |
    ⟨store, hstore, _, repository, hrepository, tip, htip, hreach⟩)
  · cases hcheckout
    obtain rfl : behind = repository := Option.some.inj hrepository
    obtain rfl : tip = ⟨1⟩ := by
      simpa [behind, Repository.ownRefs, Repository.ordinary, startsWith, stripPrefix, TRACKING,
        List.isPrefixOf] using htip
    rcases Relation.ReflTransGen.cases_head hreach with heq | ⟨next, hparent, _⟩
    · exact absurd heq (by decide)
    · exact absurd hparent (List.not_mem_nil)
  · cases hcheckout
    obtain ⟨tip, _, ⟨hrelated, _⟩ | ⟨hrelated, _⟩⟩ := hremote
    · exact absurd hrelated (by decide +kernel)
    · exact absurd hrelated (by decide +kernel)
  · obtain rfl := List.mem_singleton.mp hstore
    obtain rfl : behind = repository := Option.some.inj hrepository
    have hreached : (⟨2⟩ : Oid) ∈ behind.reach behind.ownTips :=
      behind.mem_reach_iff.mpr ⟨tip, htip, hreach⟩
    exact absurd hreached (by decide)

theorem safe_over_unread_head : ∃ assessment,
    assess (detachedHome behind noRevParse) reclaimed = .ok assessment ∧
      (assessment.verdict (detachedHome behind noRevParse) ["/home"] 0).isSafe = true ∧
      ∃ commit, InHome (detachedHome behind noRevParse) reclaimed commit ∧
        ¬Covered (detachedHome behind noRevParse) reclaimed commit := by
  have hanswers : (assess (detachedHome behind noRevParse) reclaimed).toOption.any
      (fun assessment ↦ (assessment.verdict (detachedHome behind noRevParse)
        ["/home"] 0).isSafe) = true := by decide +kernel
  obtain ⟨assessment, hassess, hsafe⟩ := answered_of_any hanswers
  refine ⟨assessment, hassess, hsafe, ⟨2⟩, ⟨_, rfl, ⟨2⟩, by decide, by decide, ?_⟩,
    detached_uncovered⟩
  exact Relation.ReflTransGen.refl

end Nodal.Removal
