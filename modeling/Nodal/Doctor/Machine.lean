import Nodal.Doctor.Unique

/-!
# A survey of every clone on a machine

`doctor/inspect.rs`, `doctor/machine.rs`: each clone under the roots is read, the clones of one
remote are a group, and a group holds nothing unique where every clone of it was checked, none has a
commit only it holds, and none is dirty.

Two readings fail into nothing: a `git status` that exits with a failure counts as no dirty path, and
a `HEAD` that `git rev-parse` refuses counts as no commit. And what is counted is what `HEAD`
reaches, whatever else the clone keeps. Where none of that happens, a group that holds nothing unique
can be deleted clone by clone.
-/

set_option autoImplicit false

namespace Nodal.Doctor

open Git Foundation.Ancestry

/-! ### One clone -/

/-- What a survey finds on the machine: the clones under its roots, each once, how large each is, and
when its `HEAD` was committed. -/
structure Machine where
  found : List Path
  once : found.Nodup
  bytes : Path → ℕ
  committed : Path → Except Failure (Option Seconds)

/-- One clone of a report. -/
structure CloneRow where
  path : Path
  /-- The branch it is on, nothing where its `HEAD` is detached. -/
  branch : Option RefName
  origin : Option String
  unpushed : Option ℕ := none
  witnesses : List Path := []
  onlyCopy : Option ℕ := none
  unchecked : Option Unchecked := none
  dirty : ℕ
  bytes : ℕ
  committed : Option Seconds
  deriving DecidableEq, Repr

/-- Paths a commit would capture. A status Git cannot read is none. -/
def dirtyOf (disk : Disk) (path : Path) : Except Failure ℕ :=
  match disk.status path with
  | .ok status => .ok (status.filter Entry.isUncommitted).length
  | .error .exit => .ok 0
  | .error .other => .error .other

/-- When `HEAD` was committed. A commit Git will not read has no date. -/
def committedOf (machine : Machine) (path : Path) : Except Failure (Option Seconds) :=
  match machine.committed path with
  | .ok date => .ok date
  | .error .exit => .ok none
  | .error .other => .error .other

/-- Read one clone. A failure is the clone, not the rest of the survey. -/
def inspect (disk : Disk) (machine : Machine) (path : Path) :
    Except Failure (CloneRow × CloneReading) := do
  disk.openRepository path
  let branch ← disk.currentBranch path
  let origin := (disk.remoteUrl path).toOption.join
  let reading := disk.readingOf path branch
  let dirty ← dirtyOf disk path
  let committed ← committedOf machine path
  return ({ path, branch, origin, dirty, bytes := machine.bytes path, committed }, reading)

/-! ### Groups -/

/-- Clones that share one `origin`, or one clone that has no remote. -/
structure Group where
  name : String
  clones : ℕ
  /-- Commits on no remote, across the clones this run could check. -/
  unpushed : ℕ
  /-- How many clones had no fresher clone of their remote to check their refs. -/
  unwitnessed : ℕ
  dirty : ℕ
  committed : Option Seconds
  nothingUnique : Bool
  uniqueClones : ℕ
  uniqueCommits : ℕ
  unchecked : ℕ
  repositories : List CloneRow
  deriving DecidableEq, Repr

/-- The grouping key: origin's normalised url, or the clone's path. -/
def keyOf (disk : Disk) (row : CloneRow) : String :=
  (row.origin.map disk.normalize).getD row.path

/-- Fold the rows of one group into the line the table prints. -/
def totals (name : String) (repositories : List CloneRow) : Group :=
  let dirty := (repositories.filter (0 < ·.dirty)).length
  let unchecked := (repositories.filter (·.unchecked.isSome)).length
  let uniqueCommits := (repositories.filterMap CloneRow.onlyCopy).sum
  { name, clones := repositories.length
    unpushed := (repositories.filterMap CloneRow.unpushed).sum
    unwitnessed := (repositories.filter fun row ↦ row.unpushed.isNone && row.unchecked.isNone).length
    dirty, committed := (repositories.filterMap CloneRow.committed).max?
    nothingUnique := unchecked = 0 ∧ uniqueCommits = 0 ∧ dirty = 0
    uniqueClones := (repositories.filter (·.onlyCopy.any (0 < ·))).length
    uniqueCommits, unchecked, repositories }

/-- The clones of a group, largest first. -/
def largestFirst (entries : List (CloneRow × CloneReading)) : List (CloneRow × CloneReading) :=
  entries.insertionSort fun left right ↦
    right.1.bytes < left.1.bytes ∨ right.1.bytes = left.1.bytes ∧ left.1.path ≤ right.1.path

/-- A row with what was proved of its clone. -/
def CloneRow.withProof (row : CloneRow) (proof : Proved) : CloneRow :=
  { row with
    unpushed := proof.offRemote, onlyCopy := proof.onlyCopy, unchecked := proof.unchecked
    witnesses := proof.witnesses }

/-- A clone and what it can say. -/
def subjectOf (entry : CloneRow × CloneReading) : Subject :=
  ⟨entry.1.path, entry.2⟩

/-- Totals and the uniqueness verdict for one group. -/
def group (disk : Disk) (name : String) (entries : List (CloneRow × CloneReading)) : Group :=
  let entries := largestFirst entries
  totals name (List.zipWith (fun entry proof ↦ entry.1.withProof proof) entries
    (prove disk (entries.map subjectOf)))

/-- Read every clone and group them by remote. -/
def survey (disk : Disk) (machine : Machine) : List Group :=
  let rows := machine.found.filterMap fun path ↦ (inspect disk machine path).toOption
  (rows.map (keyOf disk ·.1)).dedup.map fun name ↦
    group disk name (rows.filter (keyOf disk ·.1 = name))

/-! ### What an all-clear is about -/

/-- The status of a clone was read, and was empty. -/
def StatusEmpty (disk : Disk) (path : Path) : Prop :=
  ∃ status, disk.status path = .ok status ∧ ∀ entry ∈ status, entry.isUncommitted = false

/-- A commit some ref of the clone's own reaches, or its `HEAD` does. -/
def InClone (disk : Disk) (path : Path) (commit : Oid) : Prop :=
  ∃ repository, disk.repository path = some repository ∧
    ∃ tip ∈ repository.ownTips, repository.Holds tip commit

/-- A ref of a clone reaches a commit. -/
def CopiedIn (disk : Disk) (path : Path) (commit : Oid) : Prop :=
  ∃ repository, disk.repository path = some repository ∧
    ∃ ref ∈ repository.refs, Descends disk.history ref.oid commit

/-- A clone that fetches every branch and heard from the remote after another one did has a record of
the remote that reaches a commit. -/
def VouchedBy (disk : Disk) (witness subject : Path) (commit : Oid) : Prop :=
  ∃ repository, disk.repository witness = some repository ∧ repository.complete = true ∧
    (∃ earlier later, disk.heard subject = some earlier ∧ disk.heard witness = some later ∧
      earlier < later) ∧
    ∃ seen ∈ trackedIn repository.refs, Descends disk.history seen.oid commit

/-- Two clones keep their objects in stores of their own: neither is a linked worktree of the
other. -/
def Apart (disk : Disk) (first second : Path) : Prop :=
  ∀ shared, disk.commonDir first = some shared → disk.commonDir second ≠ some shared

/-- Another clone of a group reaches a commit, or has a reading of the remote that does. -/
def KeptElsewhere (disk : Disk) (answer : Group) (row : CloneRow) (commit : Oid) : Prop :=
  ∃ other ∈ answer.repositories, other.path ≠ row.path ∧ Apart disk row.path other.path ∧
    (CopiedIn disk other.path commit ∨ VouchedBy disk other.path row.path commit)

/-- The readings of a clone do not fail into nothing, its `HEAD` reaches all it keeps, and its store
is its own: its status does not exit with a failure, nor does the reading of its `HEAD` where one is
asked for, a `HEAD` that names a ref names a branch, every commit of its own refs is behind `HEAD`,
and no other clone of the survey is a linked worktree of the same repository. -/
structure Examined (disk : Disk) (machine : Machine) (path : Path) : Prop where
  status : disk.fails path .status ≠ some .exit
  head : disk.fails path .revParseHead ≠ some .exit ∨ disk.fails path .symbolicRef = none ∧
    ∀ repository, disk.repository path = some repository →
      ∀ oid, repository.head ≠ .detached oid
  branch : ∀ repository, disk.repository path = some repository →
    ∀ name, repository.head = .symbolic name → ∃ branch, name = HEADS ++ branch ∧ branch ≠ []
  behind : ∀ repository, disk.repository path = some repository →
    ∀ ref ∈ repository.ownRefs, ∀ commit, repository.Holds ref.oid commit →
      ∃ head ∈ repository.headCommit, repository.Holds head commit
  apart : ∀ other ∈ machine.found, other ≠ path → Apart disk path other

variable {disk : Disk} {machine : Machine} {path : Path} {entry : CloneRow × CloneReading}
  {commit : Oid}

/-! ### One clone's reading -/

/-- What a clone that was inspected has been read as. -/
theorem inspect_eq_ok (h : inspect disk machine path = .ok entry) : ∃ branch,
    entry.1.path = path ∧ disk.currentBranch path = .ok branch ∧
      entry.2 = disk.readingOf path branch ∧ dirtyOf disk path = .ok entry.1.dirty ∧
      disk.openRepository path = .ok () := by
  unfold inspect at h
  obtain ⟨_, hopens, h⟩ := bind_eq_ok h
  obtain ⟨branch, hbranch, h⟩ := bind_eq_ok h
  obtain ⟨dirty, hdirty, h⟩ := bind_eq_ok h
  obtain ⟨committed, _, h⟩ := bind_eq_ok h
  cases h
  exact ⟨branch, rfl, hbranch, rfl, hdirty, hopens⟩

/-- A clone with no dirty path has had its status read, and it was empty.

Assumes: the status does not exit with a failure. -/
theorem statusEmpty_of_dirtyOf (hfails : disk.fails path .status ≠ some .exit)
    (hopens : disk.openRepository path = .ok ()) (h : dirtyOf disk path = .ok 0) :
    StatusEmpty disk path := by
  obtain ⟨repository, hrepository, _⟩ := Disk.runOk_eq_ok hopens
  unfold dirtyOf at h
  split at h
  · next status hstatus =>
    refine ⟨status, hstatus, fun entry hentry ↦ ?_⟩
    have hnone := List.filter_eq_nil_iff.mp (List.eq_nil_of_length_eq_zero (Except.ok.inj h))
    simpa using hnone entry hentry
  · next hstatus =>
    unfold Disk.status Disk.runOk Disk.ran at hstatus
    cases hcase : disk.fails path .status with
    | none => simp [hcase, hrepository] at hstatus
    | some failure => cases failure <;> simp_all
  · cases h

/-- A `HEAD` that is asked for is the commit it names.

Assumes: the asking does not exit with a failure. -/
theorem headCommit_of_asked {repository : Repository disk.history} {head : Option Oid}
    (hrepository : disk.repository path = some repository)
    (hfails : disk.fails path .revParseHead ≠ some .exit)
    (h : disk.headOf path none repository.refs = .ok head) : head = repository.headCommit := by
  unfold Disk.headOf Disk.revParseHead Disk.runOk Disk.ran at h
  cases hcase : disk.fails path .revParseHead with
  | some failure => cases failure <;> simp_all [bind, Except.bind]
  | none => cases hnamed : repository.headCommit <;> simp_all [bind, Except.bind]

/-- The `HEAD` of an examined clone's reading is the commit its `HEAD` names. -/
theorem head_of_examined {repository : Repository disk.history} {branch : Option RefName}
    {head : Option Oid} (hexamined : Examined disk machine path)
    (hrepository : disk.repository path = some repository)
    (hbranch : disk.currentBranch path = .ok branch)
    (h : disk.headOf path branch repository.refs = .ok head) : head = repository.headCommit := by
  unfold Disk.currentBranch Disk.ran at hbranch
  cases hfails : disk.fails path .symbolicRef with
  | some failure =>
    have hasked : disk.fails path .revParseHead ≠ some .exit :=
      hexamined.head.resolve_right fun hsymbolic ↦ by simp [hfails] at hsymbolic
    cases failure with
    | other => simp [hfails, Except.map] at hbranch
    | exit =>
      obtain rfl : none = branch := by simpa [hfails, Except.map] using hbranch
      exact headCommit_of_asked hrepository hasked h
  | none =>
    cases hhead : repository.head with
    | detached oid =>
      have hasked : disk.fails path .revParseHead ≠ some .exit :=
        hexamined.head.resolve_right fun hsymbolic ↦ hsymbolic.2 repository hrepository oid hhead
      obtain rfl : none = branch := by simpa [hfails, hrepository, hhead, Except.map] using hbranch
      exact headCommit_of_asked hrepository hasked h
    | symbolic name =>
      obtain ⟨short, rfl, hshort⟩ := hexamined.branch repository hrepository name hhead
      have hstrip : stripPrefix HEADS (HEADS ++ short) = some short := by
        simp [stripPrefix, List.length_pos_iff.mpr hshort]
      obtain rfl : some short = branch := by
        simpa [hfails, hrepository, hhead, hstrip, Except.map] using hbranch
      simpa [Disk.headOf, Repository.headCommit, hhead, eq_comm] using h

/-! ### One group -/

/-- A group that holds nothing unique is one where every clone was checked, none has a commit only
it holds, and none is dirty. -/
theorem row_of_nothingUnique {name : String} {repositories : List CloneRow} {row : CloneRow}
    (h : (totals name repositories).nothingUnique = true) (hrow : row ∈ repositories) :
    row.unchecked = none ∧ (∀ only, row.onlyCopy = some only → only = 0) ∧ row.dirty = 0 := by
  simp only [totals, decide_eq_true_eq, List.length_eq_zero_iff, List.filter_eq_nil_iff,
    List.sum_eq_zero_iff_forall_eq_nat] at h
  obtain ⟨hchecked, hunique, hclean⟩ := h
  refine ⟨by simpa using hchecked row hrow, fun only honly ↦ ?_, by simpa using hclean row hrow⟩
  exact hunique only (List.mem_filterMap.mpr ⟨row, hrow, honly⟩)

/-- The rows of a group are its clones', each with what was proved of it. -/
theorem repositories_getElem? {name : String} {entries : List (CloneRow × CloneReading)}
    {index : ℕ} : (group disk name entries).repositories[index]? =
      (largestFirst entries)[index]?.map fun entry ↦ entry.1.withProof
        (proved disk ((largestFirst entries).map subjectOf) index (subjectOf entry)) := by
  simp only [group, totals, prove, List.getElem?_zipWith, List.getElem?_map, List.getElem?_zipIdx]
  cases (largestFirst entries)[index]? <;> simp

theorem mem_largestFirst {entries : List (CloneRow × CloneReading)} :
    entry ∈ largestFirst entries ↔ entry ∈ entries :=
  List.mem_insertionSort _

/-- Another clone of the group has a row of its own.

Assumes: no path is in the group twice. -/
theorem row_of_other {name : String} {entries : List (CloneRow × CloneReading)} {index : ℕ}
    {other : Subject} (hnodup : (entries.map fun entry ↦ entry.1.path).Nodup)
    (hentry : (largestFirst entries)[index]? = some entry)
    (hother : other ∈ ((largestFirst entries).map subjectOf).eraseIdx index) :
    ∃ found ∈ entries, subjectOf found = other ∧ found.1.path ≠ entry.1.path ∧
      ∃ row ∈ (group disk name entries).repositories, row.path = other.path := by
  obtain ⟨place, hne, hat⟩ := List.mem_eraseIdx_iff_getElem?.mp hother
  rw [List.getElem?_map, Option.map_eq_some_iff] at hat
  obtain ⟨found, hfound, rfl⟩ := hat
  have hsorted : ((largestFirst entries).map fun entry ↦ entry.1.path).Nodup :=
    ((List.perm_insertionSort _ entries).map _).nodup_iff.mpr hnodup
  refine ⟨found, mem_largestFirst.mp (List.mem_of_getElem? hfound), rfl, fun hsame ↦ hne ?_,
    found.1.withProof (proved disk ((largestFirst entries).map subjectOf) place (subjectOf found)),
    List.mem_of_getElem? (i := place) (by rw [repositories_getElem?, hfound]; rfl), rfl⟩
  have hbound : place < ((largestFirst entries).map fun entry ↦ entry.1.path).length := by
    simpa using (List.getElem?_eq_some_iff.mp hfound).1
  exact (List.getElem?_inj hbound hsorted).mp (by simp [hfound, hentry, hsame])

/-- A group of a survey is clones the survey found, each read, and no path twice. -/
theorem group_of_survey {answer : Group} (h : answer ∈ survey disk machine) :
    ∃ name entries, answer = group disk name entries ∧
      (entries.map fun entry ↦ entry.1.path).Nodup ∧
      ∀ entry ∈ entries, entry.1.path ∈ machine.found ∧
        inspect disk machine entry.1.path = .ok entry := by
  obtain ⟨name, _, rfl⟩ := List.mem_map.mp h
  have hread : ∀ path entry, (inspect disk machine path).toOption = some entry →
      entry.1.path = path ∧ inspect disk machine path = .ok entry := by
    intro path entry hentry
    cases hinspect : inspect disk machine path with
    | error failure => simp [hinspect, Except.toOption] at hentry
    | ok found =>
      obtain rfl : found = entry := by simpa [hinspect, Except.toOption] using hentry
      obtain ⟨_, hpath, _⟩ := inspect_eq_ok hinspect
      exact ⟨hpath, rfl⟩
  refine ⟨name, _, rfl, ?_, fun entry hentry ↦ ?_⟩
  · refine (List.Nodup.sublist (List.Sublist.map _ List.filter_sublist) ?_)
    rw [List.map_filterMap]
    refine machine.once.filterMap fun first second shared hfirst hsecond ↦ ?_
    obtain ⟨left, hleft, rfl⟩ := Option.map_eq_some_iff.mp hfirst
    obtain ⟨right, hright, hsame⟩ := Option.map_eq_some_iff.mp hsecond
    exact (hread first left hleft).1.symm.trans (hsame.symm.trans (hread second right hright).1)
  · obtain ⟨path, hpath, hentry⟩ := List.mem_filterMap.mp (List.mem_filter.mp hentry).1
    obtain ⟨rfl, hinspect⟩ := hread path entry hentry
    exact ⟨hpath, hinspect⟩

/-! ### What the other clones say -/

/-- A tip another clone may stand as a copy of is a ref of it. -/
theorem copiedIn_of_mine {tip : Oid} (hread : inspect disk machine path = .ok entry)
    (htip : tip ∈ mine (subjectOf entry)) (hreach : Descends disk.history tip commit) :
    CopiedIn disk path commit := by
  obtain ⟨branch, _, _, hreading, _⟩ := inspect_eq_ok hread
  unfold mine at htip
  split at htip
  · next hwitness =>
    have hreadable : (disk.readingOf path branch).unreadable = none := by
      rw [← hreading]
      exact Option.isNone_iff_eq_none.mp (Bool.and_eq_true_iff.mp hwitness).2
    obtain ⟨repository, hrepository, _, htips, _⟩ := readingOf_readable hreadable
    rw [subjectOf, hreading, htips] at htip
    obtain ⟨ref, href, rfl⟩ := List.mem_map.mp htip
    exact ⟨repository, hrepository, ref, href, hreach⟩
  · cases htip

/-- A clone that witnesses another fetches every branch, and heard from the remote later. -/
theorem vouchedBy_of_fresher {subject : CloneRow × CloneReading} {home : Path} {seen : RemoteTip}
    (hread : inspect disk machine path = .ok entry) (hsubject : subject.2.heard = disk.heard home)
    (hfresh : fresher entry.2 (subjectOf subject) = true) (hseen : seen ∈ entry.2.remotes)
    (hreach : Descends disk.history seen.oid commit) : VouchedBy disk path home commit := by
  obtain ⟨branch, _, _, hreading, _⟩ := inspect_eq_ok hread
  unfold fresher at hfresh
  split at hfresh
  · cases hfresh
  · next hfit =>
    simp only [not_or, Bool.not_eq_false, Bool.not_eq_true, Option.isSome_eq_false_iff,
      Option.isNone_iff_eq_none] at hfit
    rw [hreading] at hfit hseen hfresh
    obtain ⟨repository, hrepository, _, _, hremotes, hheard, hcomplete⟩ :=
      readingOf_readable hfit.2
    rw [hheard, subjectOf, hsubject] at hfresh
    split at hfresh
    · next later earlier hlater hearlier =>
      exact ⟨repository, hrepository, hcomplete hfit.1,
        ⟨earlier, later, hearlier, hlater, of_decide_eq_true hfresh⟩, seen, hremotes ▸ hseen, hreach⟩
    · cases hfresh

/-! ### The survey -/

/-- An examined clone's own commits are behind its `HEAD`. -/
theorem behind_head (hexamined : Examined disk machine path)
    {repository : Repository disk.history} (hrepository : disk.repository path = some repository)
    (hclone : InClone disk path commit) :
    ∃ head, repository.headCommit = some head ∧ repository.Holds head commit := by
  obtain ⟨found, hfound, tip, htip, hholds⟩ := hclone
  obtain rfl : repository = found := Option.some.inj (hrepository.symm.trans hfound)
  rcases List.mem_append.mp htip with hown | hhead
  · obtain ⟨ref, href, rfl⟩ := List.mem_map.mp hown
    exact hexamined.behind repository hrepository ref href commit hholds
  · exact ⟨tip, by simpa using hhead, hholds⟩

/-- Commit 2 is on top of commit 1. -/
def lineage (commit : Oid) : List Oid :=
  if commit = ⟨2⟩ then [⟨1⟩] else []

/-- A clone of `app` on `main`, with or without a branch `topic` that is one commit ahead. -/
def clone (topic : Bool) : Repository lineage :=
  { Repository.ordinary
      (⟨HEADS ++ ["main"], ⟨1⟩⟩ :: if topic then [⟨HEADS ++ ["topic"], ⟨2⟩⟩] else [])
      (.symbolic (HEADS ++ ["main"])) [⟨2⟩, ⟨1⟩] (by decide) with
    remotes := [REMOTE], origin := some "app" }

/-- Two clones of one remote, the first of which keeps the branch `topic` or does not. -/
def laptop (topic : Bool) (fails : Path → Command → Option Failure) : Disk :=
  { Disk.ordinaries lineage (fun _ ↦ []) (fun path ↦
      if path = "/work/app" then some (clone topic)
      else if path = "/old/app" then some (clone false) else none) fails with
    commonDir := fun path ↦ some (path ++ "/.git") }

/-- A survey that finds some clones, each of one size. -/
def finds (found : List Path) (once : found.Nodup) : Machine :=
  { found, once, bytes := fun _ ↦ 1, committed := fun _ ↦ .ok none }

/-- Both clones of the laptop. -/
def both : Machine :=
  finds ["/old/app", "/work/app"] (by decide)

/-- The row of one of the clones. -/
def laptopRow (path : Path) : CloneRow :=
  { path, branch := some ["main"], origin := some "app", unpushed := some 1, onlyCopy := some 0
    dirty := 0, bytes := 1, committed := none }

/-- What the survey answers, whether the branch is there or not. -/
def answered : Group :=
  { name := "app", clones := 2, unpushed := 2, unwitnessed := 0, dirty := 0, committed := none
    nothingUnique := true, uniqueClones := 0, uniqueCommits := 0, unchecked := 0
    repositories := [laptopRow "/old/app", laptopRow "/work/app"] }

theorem survey_laptop (topic : Bool) :
    survey (laptop topic fun _ _ ↦ none) both = [answered] := by
  cases topic <;> decide +kernel

/-- The clone that keeps one branch is examined. -/
theorem examined_laptop : Examined (laptop false fun _ _ ↦ none) both "/work/app" := by
  have hclone (repository : Repository lineage)
      (h : (laptop false fun _ _ ↦ none).repository "/work/app" = some repository) :
      clone false = repository :=
    Option.some.inj h
  refine ⟨by decide, .inl (by decide), fun repository hrepository name hname ↦ ?_,
    fun repository hrepository ref href commit hholds ↦ ?_, fun other hother hne ↦ ?_⟩
  · obtain rfl := hclone repository hrepository
    exact ⟨["main"], (Head.symbolic.inj hname).symm, List.cons_ne_nil _ _⟩
  · obtain rfl := hclone repository hrepository
    obtain rfl : ref = ⟨HEADS ++ ["main"], ⟨1⟩⟩ := by
      simpa [clone, Repository.ordinary] using (List.mem_filter.mp href).1
    exact ⟨⟨1⟩, rfl, hholds⟩
  · intro shared hshared hsame
    obtain rfl | rfl : other = "/old/app" ∨ other = "/work/app" := by
      simpa [both, finds] using hother
    · exact absurd (hshared.trans hsame.symm) (by decide)
    · exact hne rfl

end Nodal.Doctor
