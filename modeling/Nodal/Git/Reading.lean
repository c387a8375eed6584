import Nodal.Git.Outside

/-!
# What one repository says, and what another may believe of it

`doctor/inspect.rs`, `doctor/unique.rs`: one repository is read once, and a reading that failed is a
reading that says so. A remote-tracking ref is a record of an old push or fetch, so it proves
something only where a second repository, the witness, has read the remote later: the witness's own
tip for each branch stands for the branch, and a tip of the subject counts where the witness still
reaches it.
-/

set_option autoImplicit false

namespace Nodal.Git

open Foundation.Ancestry

/-- One remote-tracking ref: which branch of the remote, and the commit it holds. -/
structure RemoteTip where
  branch : RefName
  oid : Oid
  deriving DecidableEq, Repr

/-- What one clone can say, read once. -/
structure CloneReading where
  head : Option Oid := none
  tips : List Oid := []
  own : List Oid := []
  remotes : List RemoteTip := []
  heard : Option ℕ := none
  complete : Bool := false
  shallow : Bool := false
  unreadable : Option Failure := none
  deriving DecidableEq, Repr

/-- One clone and what it can say. -/
structure Subject where
  path : Path
  reading : CloneReading
  deriving DecidableEq, Repr

/-- What this run is willing to believe the remote holds, and who vouched for it. -/
structure Trusted where
  tips : List Oid := []
  witnesses : List Path := []
  deriving DecidableEq, Repr

/-- The branches of `origin` a listing names. The default-branch pointer is not one. -/
def trackedIn (refs : List Ref) : List RemoteTip :=
  refs.filterMap fun ref ↦ do
    let branch ← stripPrefix (TRACKING ++ [REMOTE]) ref.name
    if branch = DEFAULT then none else some ⟨branch, ref.oid⟩

/-- The tips of the refs a repository holds of its own accord. -/
def ownOf (refs : List Ref) : List Oid :=
  (refs.filter (!startsWith TRACKING ·.name)).map Ref.oid

namespace Disk

variable (disk : Disk)

/-- A repository's own branches, read as the tips a clone of it would fetch. -/
def heads (path : Path) : List RemoteTip :=
  ((disk.listRefs path HEADS).toOption.getD []).filterMap fun ref ↦
    (stripPrefix HEADS ref.name).map fun branch ↦ ⟨branch, ref.oid⟩

/-- The commit `HEAD` names. A branch's tip is already in hand; a detached `HEAD` is asked. -/
def headOf (path : Path) (branch : Option RefName) (refs : List Ref) :
    Except Failure (Option Oid) :=
  match branch with
  | some branch => .ok ((refs.find? (·.name = HEADS ++ branch)).map Ref.oid)
  | none => match disk.revParseHead path with
    | .ok oid => .ok (some oid)
    | .error .exit => .ok none
    | .error .other => .error .other

/-- Everything this clone can say about where its commits also live, once it is open. -/
def readingOf (path : Path) (branch : Option RefName) : CloneReading :=
  match disk.allRefs path with
  | .error failure => { unreadable := some failure }
  | .ok refs => match disk.headOf path branch refs with
    | .error failure => { unreadable := some failure }
    | .ok head =>
      { head, tips := refs.map Ref.oid, own := ownOf refs, remotes := trackedIn refs,
        heard := disk.heard path,
        complete := (disk.runOk path .refspecs Repository.complete).toOption.getD false,
        shallow := disk.shallowFile path }

/-- Everything one repository can say about where its commits also live. -/
def reading (path : Path) : CloneReading :=
  match disk.openRepository path with
  | .error failure => { unreadable := some failure }
  | .ok _ => disk.readingOf path ((disk.currentBranch path).toOption.join)

/-! ### What is believed -/

/-- Where the freshest witness has this branch. -/
def witnessed (witnesses : List Subject) (branch : RefName) : Option Oid :=
  ((witnesses.flatMap (·.reading.remotes)).find? (·.branch = branch)).map RemoteTip.oid

/-- The subject's own remote-tracking tips that the first witness to answer still reaches. -/
def confirmed (subject : Subject) : List Subject → List Oid
  | [] => []
  | witness :: others =>
    let mine := subject.reading.remotes.map RemoteTip.oid
    let theirs := witness.reading.remotes.map RemoteTip.oid
    if mine = [] then []
    else match disk.stores witness.path mine with
      | .error _ => confirmed subject others
      | .ok stored => match disk.among witness.path stored theirs with
        | .error _ => confirmed subject others
        | .ok gone => stored.filter (· ∉ gone)

/-- What one repository's own remote-tracking refs are worth once the witnesses have checked them. -/
def believed (subject : Subject) (witnesses : List Subject) : Trusted :=
  if witnesses = [] then {}
  else
    { tips := sorted (subject.reading.remotes.filterMap (witnessed witnesses ·.branch) ++
        disk.confirmed subject witnesses)
      witnesses := witnesses.map Subject.path }

end Disk

variable {disk : Disk} {subject : Subject} {witnesses : List Subject} {tip : Oid}

/-- A clone that could be read has had its refs read, and its `HEAD`. -/
theorem readingOf_readable {path : Path} {branch : Option RefName}
    (h : (disk.readingOf path branch).unreadable = none) : ∃ repository,
      disk.repository path = some repository ∧
        disk.headOf path branch repository.refs = .ok (disk.readingOf path branch).head ∧
        (disk.readingOf path branch).tips = repository.refs.map Ref.oid ∧
        (disk.readingOf path branch).remotes = trackedIn repository.refs ∧
        (disk.readingOf path branch).heard = disk.heard path ∧
        ((disk.readingOf path branch).complete = true → repository.complete = true) := by
  cases hrefs : disk.allRefs path with
  | error failure => simp [Disk.readingOf, hrefs] at h
  | ok refs =>
    obtain ⟨repository, hrepository, rfl⟩ := Disk.runOk_eq_ok hrefs
    cases hhead : disk.headOf path branch repository.refs with
    | error failure => simp [Disk.readingOf, hrefs, hhead] at h
    | ok head =>
      have hcomplete (answered : (disk.runOk path .refspecs Repository.complete).toOption.getD false
          = true) : repository.complete = true := by
        cases hanswer : disk.runOk path .refspecs Repository.complete with
        | error failure => simp [hanswer, Except.toOption] at answered
        | ok complete =>
          obtain ⟨found, hfound, rfl⟩ := Disk.runOk_eq_ok hanswer
          obtain rfl : repository = found := Option.some.inj (hrepository.symm.trans hfound)
          simpa [hanswer, Except.toOption] using answered
      refine ⟨repository, hrepository, ?_⟩
      simp only [Disk.readingOf, hrefs, hhead, true_and]
      exact hcomplete

/-- A confirmed tip is one a witness's own record of the remote reaches. -/
theorem confirmed_reached (h : tip ∈ disk.confirmed subject witnesses) :
    ∃ witness ∈ witnesses, ∃ seen ∈ witness.reading.remotes,
      Descends disk.history seen.oid tip := by
  induction witnesses with
  | nil => cases h
  | cons witness others ih =>
    have later (h : tip ∈ disk.confirmed subject others) : ∃ witness' ∈ witness :: others,
        ∃ seen ∈ witness'.reading.remotes, Descends disk.history seen.oid tip := by
      obtain ⟨other, hother, hseen⟩ := ih h
      exact ⟨other, List.mem_cons_of_mem _ hother, hseen⟩
    rw [Disk.confirmed] at h
    split at h
    · cases h
    · split at h
      · exact later h
      · next stored hstored =>
        split at h
        · exact later h
        · next gone hgone =>
          obtain ⟨htip, hnot⟩ := List.mem_filter.mp h
          obtain ⟨_, repository, hrepository, hcommit⟩ := Disk.stores_eq_ok hstored htip
          have hself : repository.Holds tip tip := ⟨hcommit, Relation.ReflTransGen.refl⟩
          rcases Disk.among_covers hrepository hgone htip hself with hleft | ⟨seen, hseen, hholds⟩
          · exact absurd hleft (of_decide_eq_true hnot)
          · obtain ⟨remote, hremote, rfl⟩ := List.mem_map.mp hseen
            exact ⟨witness, List.mem_cons_self, remote, hremote, hholds.descends⟩

/-- Whatever is believed, a witness's own record of the remote reaches it. -/
theorem believed_reached (h : tip ∈ (disk.believed subject witnesses).tips) :
    ∃ witness ∈ witnesses, ∃ seen ∈ witness.reading.remotes,
      Descends disk.history seen.oid tip := by
  unfold Disk.believed at h
  split at h
  · cases h
  · rcases List.mem_append.mp (mem_sorted.mp h) with hnamed | hconfirmed
    · obtain ⟨named, _, hseen⟩ := List.mem_filterMap.mp hnamed
      obtain ⟨seen, hfound, rfl⟩ := Option.map_eq_some_iff.mp hseen
      obtain ⟨witness, hwitness, hremote⟩ :=
        List.mem_flatMap.mp (List.mem_of_find?_eq_some hfound)
      exact ⟨witness, hwitness, seen, hremote, Relation.ReflTransGen.refl⟩
    · exact confirmed_reached hconfirmed

end Nodal.Git
