import Nodal.Git.Checkout
import Nodal.Runtime.Occupied

/-!
# What the list answers about a unit

`runtime/ls.rs`, `context/survey.rs`: why a unit needs a person is the first match over four readings,
of the working tree, of the process table, of the project's remote, and of the branch's upstream. The
branch is what the home has checked out.

A reading that could not be taken is never one of the answers of a unit with nothing to lose, with one
exception. Git names the upstream a branch is configured with whether or not the ref is there, and leaves
out the distance where it is not; the distance is then read as zero, as it is where it does not fit. So
the three quiet answers cover what they say exactly where the upstream is there and the counts fit
(`noLess_iff`).
-/

set_option autoImplicit false

namespace Nodal.Listing

open Git Foundation Nodal.Runtime

/-! ### The survey of one home -/

/-- How a branch stands against its upstream. -/
structure Upstream where
  upstream : Text
  divergence : Divergence
  deriving DecidableEq

/-- What Git says about one home. -/
structure Work where
  base : RefName
  divergence : Divergence
  integration : Integration
  /-- Paths changed in the working tree and not staged. -/
  dirty : ℕ
  /-- Paths staged and not committed. -/
  staged : ℕ
  /-- Paths Git does not track and no ignore rule covers. -/
  untracked : ℕ
  detached : Bool
  remote : Option Upstream
  deriving DecidableEq

/-- How many entries of a status answer a question. -/
def count (summary : Status.Summary) (asks : Status.State → Bool) : ℕ :=
  min (summary.entries.filter fun entry ↦ asks entry.state).length (2 ^ 32 - 1)

/-- Whether the working tree differs from the index, an unresolved merge included. -/
def sideWorktree : Status.State → Bool
  | .tracked _ worktree => worktree ≠ .unmodified
  | .unmerged => true
  | .untracked | .ignored => false

/-- Whether the index differs from `HEAD`. -/
def sideIndex : Status.State → Bool
  | .tracked index _ => index ≠ .unmodified
  | _ => false

/-- Whether Git does not track the path. -/
def isUntracked : Status.State → Bool
  | .untracked => true
  | _ => false

/-- Where a branch stands against the first of the candidates that answers. -/
def standing (checkout : Checkout) (worktree : Worktree) : List RefName → Except Failure Git.Standing
  | [] => .error .exit
  | [last] => checkout.standing worktree last
  | candidate :: rest => match checkout.standing worktree candidate with
    | .ok standing => .ok standing
    | .error _ => standing checkout worktree rest

/-- Whether the branch and the base have a commit in common. -/
def mergeBase (checkout : Checkout) (worktree : Worktree) (base : RefName) : Except Failure Bool :=
  worktree.ask .mergeBase (((checkout.reach (checkout.headCommit worktree).toList).filter
    (· ∈ checkout.reach (checkout.resolve base).toList)) ≠ [])

/-- The logs from the commit the branch and the base last agreed on, where there is one. -/
def since (checkout : Checkout) (worktree : Worktree) (base : RefName) : Except Failure Unit :=
  match mergeBase checkout worktree base with
  | .ok true => worktree.ask .log ()
  | _ => .ok ()

/-- What Git says about one home. -/
def work (checkout : Checkout) (worktree : Worktree) (candidates : List RefName) :
    Except Failure Work := do
  let summary ← checkout.status worktree
  let standing ← standing checkout worktree candidates
  since checkout worktree standing.base
  return {
    base := standing.base
    divergence := standing.divergence
    integration := standing.integration
    dirty := count summary sideWorktree
    staged := count summary sideIndex
    untracked := count summary isUntracked
    detached := match summary.head with
      | .detached _ => true
      | _ => false
    remote := summary.upstream.map fun upstream ↦ ⟨upstream, ⟨summary.ahead, summary.behind⟩⟩ }

/-! ### The answer -/

/-- Why a unit needs a person, most actionable first. -/
inductive Needs
  | uniqueLoss
  | blockingRuntime
  | unknownEvidence
  | diverged
  | review
  | nothing
  deriving DecidableEq, Repr

/-- What the one reading of the process table said about a home. -/
inductive Stands
  | clear
  | blocked
  | unread
  deriving DecidableEq, Repr

/-- What this machine knows about the project's remote, for one home. -/
structure Remote where
  exists' : Bool
  current : Bool
  deriving DecidableEq, Repr

/-- Why the branch's own commits need a person, when they do. -/
def unproved (work : Work) (remote : Remote) : Option Needs :=
  if work.divergence.ahead = 0 then none
  else if remote.exists' = false then some .uniqueLoss
  else if remote.current = false then some .unknownEvidence
  else if work.remote.any (·.divergence.ahead = 0) then none
  else some .uniqueLoss

/-- The paths that are not committed, added up in 32 bits. -/
def Work.paths (work : Work) : ℕ := (work.dirty + work.staged + work.untracked) % 2 ^ 32

/-- Why a unit needs a person. -/
def needs (work : Option Work) (stands : Stands) (remote : Remote) : Option Needs :=
  match work with
  | none => none
  | some work =>
    if 0 < work.paths then some .uniqueLoss
    else match stands with
      | .blocked => some .blockingRuntime
      | .unread => some .unknownEvidence
      | .clear => match unproved work remote with
        | some loss => some loss
        | none =>
          if work.integration = .conflict ∨ work.divergence.isBehind then some .diverged
          else if work.integration.isIntegrated ∨ 0 < work.divergence.ahead then some .review
          else some .nothing

/-- Everything the list reads for one unit with a home. -/
structure Reading where
  checkout : Checkout
  worktree : Worktree
  /-- The revisions the branch may be measured against, best first. -/
  candidates : List RefName
  /-- The process table, or why it could not be read. -/
  scan : Except String (List Running)
  host : Host
  own : Own
  /-- The home, with every link on the way to it followed. -/
  home : Place
  spared : List ℕ
  /-- Whether the project row names a remote. -/
  remoteUrl : Option String
  /-- When the project's checkout last heard from it. -/
  heard : Option ℕ
  /-- When the home last wrote its own record of it. -/
  wroteOrigin : Option ℕ

namespace Reading

variable (reading : Reading)

def work : Except Failure Work := Listing.work reading.checkout reading.worktree reading.candidates

/-- What the table said about the home. -/
def stands : Stands :=
  match reading.scan with
  | .error _ => .unread
  | .ok running =>
    if (sort reading.host reading.own [reading.home] reading.spared (fun _ ↦ false) running).2 = [] then
      .clear
    else .blocked

/-- Whether the remote was read after the home wrote its own record of it. -/
def readSince : Bool :=
  match reading.heard, reading.wroteOrigin with
  | some read, some written => written < read
  | _, _ => false

def remote : Remote := ⟨reading.remoteUrl.isSome, reading.readSince⟩

/-- What the list answers about the unit. -/
def answer : Option Needs := needs reading.work.toOption reading.stands reading.remote

end Reading

/-! ### What an answer covers -/

/-- The answers of a unit with nothing to lose. -/
def Needs.Quiet (needs : Needs) : Prop := needs = .diverged ∨ needs = .review ∨ needs = .nothing

/-- What has been read of a unit with nothing to lose. -/
structure Reading.Covered (reading : Reading) : Prop where
  clean : reading.worktree.changed = []
  clear : ∃ running, reading.scan = .ok running ∧ ∀ process ∈ running,
    bystander reading.host reading.own [reading.home] reading.spared process = false
  remote : reading.remoteUrl.isSome = true
  since : ∃ read written, reading.heard = some read ∧ reading.wroteOrigin = some written ∧ written < read
  upstream : ∃ branch upstream tip, reading.worktree.head = .symbolic branch ∧
    reading.checkout.upstream branch = some upstream ∧ reading.checkout.ref upstream = some tip ∧
    ∀ commit ∈ reading.checkout.reach (reading.checkout.headCommit reading.worktree).toList,
      commit ∈ reading.checkout.reach [tip]

/-- The list says no less than it read: a quiet answer of a branch that is ahead of its base covers what
it says, and a reading that could not be taken is never answered by one. -/
structure Reading.NoLess (reading : Reading) : Prop where
  covered : ∀ work answer, reading.work = .ok work → 0 < work.divergence.ahead →
    reading.answer = some answer → answer.Quiet → reading.Covered
  /-- Of a home that Git could not answer for there is no word. -/
  home : ∀ failure, reading.work = .error failure → reading.answer = none
  table : ∀ error, reading.scan = .error error → ∀ answer, reading.answer = some answer →
    answer = .uniqueLoss ∨ answer = .unknownEvidence
  remote : ∀ work, reading.work = .ok work → 0 < work.divergence.ahead →
    reading.remoteUrl.isSome = true → reading.readSince = false → ∀ answer, reading.answer = some answer →
      answer = .uniqueLoss ∨ answer = .blockingRuntime ∨ answer = .unknownEvidence

/-- The readings taken for more than they are. All is in order up to the upstream of a branch that is
ahead of its base, and a count is read as zero that is not: the upstream the branch is configured with is
not there, or the distance to it or the number of changed paths does not fit. -/
structure Reading.Misread (reading : Reading) (w : Work) (branch upstream : RefName) : Prop where
  work : reading.work = .ok w
  ahead : 0 < w.divergence.ahead
  paths : w.paths = 0
  stands : reading.stands = .clear
  remote : reading.remoteUrl.isSome = true
  since : reading.readSince = true
  head : reading.worktree.head = .symbolic branch
  configured : reading.checkout.upstream branch = some upstream
  zero : reading.checkout.ref upstream = none ∨ ∃ tip, reading.checkout.ref upstream = some tip ∧
    (2 ^ 32 ≤ reading.checkout.countOutside (reading.checkout.headCommit reading.worktree) [tip] ∨
      reading.worktree.changed ≠ [] ∧
        reading.checkout.countOutside (reading.checkout.headCommit reading.worktree) [tip] = 0)

variable {reading : Reading} {w : Work} {answer : Needs}

/-! ### What the survey reads -/

/-- What is surveyed of a home is what Git writes of it. -/
theorem work_eq_ok {checkout : Checkout} {worktree : Worktree} {candidates : List RefName}
    (h : work checkout worktree candidates = .ok w) :
    w.dirty = min (worktree.changed.countP fun changed ↦ sideWorktree changed.entry.state) (2 ^ 32 - 1) ∧
    w.staged = min (worktree.changed.countP fun changed ↦ sideIndex changed.entry.state) (2 ^ 32 - 1) ∧
    w.untracked = min (worktree.changed.countP fun changed ↦ isUntracked changed.entry.state)
      (2 ^ 32 - 1) ∧
    w.remote = (checkout.listing worktree).upstream.map fun upstream ↦ ⟨upstream,
      ⟨Status.fits ((checkout.listing worktree).distance.elim 0 Prod.fst),
        Status.fits ((checkout.listing worktree).distance.elim 0 Prod.snd)⟩⟩ := by
  obtain ⟨summary, hsummary, h⟩ := bind_eq_ok h
  obtain ⟨standing, -, h⟩ := bind_eq_ok h
  obtain ⟨-, -, h⟩ := bind_eq_ok h
  obtain ⟨records, hrecords, hsummary⟩ := bind_eq_ok hsummary
  obtain rfl : (checkout.listing worktree).records = records := by
    unfold Worktree.ask at hrecords
    split at hrecords
    · cases hrecords
    · exact Except.ok.inj hrecords
  rw [Status.parse_records] at hsummary
  cases hhead : (checkout.listing worktree).headers.head with
  | error error => simp [hhead, Except.map] at hsummary
  | ok head =>
    rw [hhead] at hsummary
    cases hsummary
    cases h
    have hcount (asks : Status.State → Bool) (upstream : Option Text) (ahead behind : ℕ) :
        count { head, upstream, ahead, behind, entries := worktree.changed.map Status.Changed.entry }
          asks = min (worktree.changed.countP fun changed ↦ asks changed.entry.state) (2 ^ 32 - 1) := by
      rw [count, ← List.countP_eq_length_filter, List.countP_map]
      rfl
    exact ⟨hcount _ _ _ _, hcount _ _ _ _, hcount _ _ _ _, rfl⟩

/-- Where a branch stands against some candidates is where it stands against one of them. -/
theorem standing_mem {checkout : Checkout} {worktree : Worktree} {candidates : List RefName}
    {found : Git.Standing} (h : standing checkout worktree candidates = .ok found) :
    ∃ base ∈ candidates, checkout.standing worktree base = .ok found := by
  fun_induction standing checkout worktree candidates with
  | case1 => cases h
  | case2 last => exact ⟨last, List.mem_singleton_self last, h⟩
  | case3 candidate rest _ first hfirst =>
    cases h
    exact ⟨candidate, List.mem_cons_self, hfirst⟩
  | case4 candidate rest _ failure _ ih =>
    obtain ⟨base, hbase, hstanding⟩ := ih h
    exact ⟨base, List.mem_cons_of_mem candidate hbase, hstanding⟩

/-- What is surveyed of a branch is where it stands against its base. -/
theorem work_standing {checkout : Checkout} {worktree : Worktree} {candidates : List RefName}
    (h : work checkout worktree candidates = .ok w) : ∃ base ∈ candidates, ∃ found,
      checkout.standing worktree base = .ok found ∧ w.divergence = found.divergence ∧
      w.integration = found.integration := by
  obtain ⟨summary, -, h⟩ := bind_eq_ok h
  obtain ⟨found, hfound, h⟩ := bind_eq_ok h
  obtain ⟨-, -, h⟩ := bind_eq_ok h
  cases h
  obtain ⟨base, hbase, hstanding⟩ := standing_mem hfound
  exact ⟨base, hbase, found, hstanding, rfl, rfl⟩

theorem parse_ne_unmodified {code : Char} (h : code ≠ '.') : Status.Change.parse code ≠ .unmodified := by
  unfold Status.Change.parse
  split <;> simp_all

/-- Every path that differs is counted. -/
theorem asked (changed : Status.Changed) : sideWorktree changed.entry.state = true ∨
    sideIndex changed.entry.state = true ∨ isUntracked changed.entry.state = true := by
  have htracked {count : ℕ} (fields : Status.Fields count) :
      sideWorktree fields.state = true ∨ sideIndex fields.state = true := by
    rcases fields.differs with hindex | hworktree
    · exact .inr (decide_eq_true (parse_ne_unmodified hindex))
    · exact .inl (decide_eq_true (parse_ne_unmodified hworktree))
  cases changed with
  | ordinary fields => exact (htracked fields).imp_right .inl
  | renamed fields origin => exact (htracked fields).imp_right .inl
  | unmerged fields => exact .inl rfl
  | untracked path => exact .inr (.inr rfl)

theorem unproved_eq_none_iff {remote : Remote} : unproved w remote = none ↔
    w.divergence.ahead = 0 ∨ remote.exists' = true ∧ remote.current = true ∧
      w.remote.any (·.divergence.ahead = 0) = true := by
  unfold unproved
  by_cases hahead : w.divergence.ahead = 0
  · simp [hahead]
  · cases remote.exists' <;> cases remote.current <;>
      cases w.remote.any (·.divergence.ahead = 0) <;> simp [hahead]

theorem unproved_not_quiet {remote : Remote} {loss : Needs} (h : unproved w remote = some loss) :
    loss = .uniqueLoss ∨ loss = .unknownEvidence := by
  unfold unproved at h
  split_ifs at h <;> cases h <;> simp

/-- The first match over the readings, one by one. -/
theorem answer_cases (h : reading.work = .ok w) :
    (w.paths ≠ 0 ∧ reading.answer = some .uniqueLoss) ∨
    (w.paths = 0 ∧ reading.stands = .blocked ∧ reading.answer = some .blockingRuntime) ∨
    (w.paths = 0 ∧ reading.stands = .unread ∧ reading.answer = some .unknownEvidence) ∨
    (w.paths = 0 ∧ reading.stands = .clear ∧ ∃ loss, unproved w reading.remote = some loss ∧
      reading.answer = some loss) ∨
    (w.paths = 0 ∧ reading.stands = .clear ∧ unproved w reading.remote = none ∧
      ∃ answer, reading.answer = some answer ∧ answer.Quiet) := by
  have hwork : reading.work.toOption = some w := by rw [h]; rfl
  have hlast : ∃ answer, (if w.integration = .conflict ∨ w.divergence.isBehind then some Needs.diverged
      else if w.integration.isIntegrated ∨ 0 < w.divergence.ahead then some .review
      else some .nothing) = some answer ∧ answer.Quiet := by
    split_ifs
    · exact ⟨.diverged, rfl, .inl rfl⟩
    · exact ⟨.review, rfl, .inr (.inl rfl)⟩
    · exact ⟨.nothing, rfl, .inr (.inr rfl)⟩
  unfold Reading.answer needs
  rw [hwork]
  by_cases hpaths : w.paths = 0
  · cases hstands : reading.stands with
    | blocked => simp [hpaths]
    | unread => simp [hpaths]
    | clear =>
      cases hunproved : unproved w reading.remote with
      | some loss => simp [hpaths, hunproved]
      | none => simpa [hpaths, hunproved] using hlast
  · simp [hpaths, Nat.pos_of_ne_zero hpaths]

/-- An answer is quiet where no path is counted, nothing stands there and nothing is unproved. -/
theorem quiet_iff (h : reading.work = .ok w) :
    (∃ answer, reading.answer = some answer ∧ answer.Quiet) ↔
      w.paths = 0 ∧ reading.stands = .clear ∧ unproved w reading.remote = none := by
  have hloud {loud : Needs} (hanswer : reading.answer = some loud)
      (hnot : ¬loud.Quiet) : ¬∃ answer, reading.answer = some answer ∧ answer.Quiet := by
    rintro ⟨answer, hquiet, hq⟩
    obtain rfl : loud = answer := Option.some.inj (hanswer.symm.trans hquiet)
    exact hnot hq
  rcases answer_cases h with ⟨hpaths, hanswer⟩ | ⟨-, hstands, hanswer⟩ | ⟨-, hstands, hanswer⟩ |
    ⟨-, -, loss, hloss, hanswer⟩ | ⟨hpaths, hstands, hunproved, hquiet⟩
  · exact iff_of_false (hloud hanswer (by simp [Needs.Quiet])) fun hall ↦ hpaths hall.1
  · refine iff_of_false (hloud hanswer (by simp [Needs.Quiet])) fun hall ↦ ?_
    cases hstands.symm.trans hall.2.1
  · refine iff_of_false (hloud hanswer (by simp [Needs.Quiet])) fun hall ↦ ?_
    cases hstands.symm.trans hall.2.1
  · have hnot : ¬loss.Quiet := by
      rcases unproved_not_quiet hloss with rfl | rfl <;> simp [Needs.Quiet]
    refine iff_of_false (hloud hanswer hnot) fun hall ↦ ?_
    cases hloss.symm.trans hall.2.2
  · exact iff_of_true hquiet ⟨hpaths, hstands, hunproved⟩

/-- A branch's upstream is read as holding every commit where its distance is read as zero. -/
theorem remote_any_iff (h : reading.work = .ok w) : w.remote.any (·.divergence.ahead = 0) = true ↔
    ∃ branch upstream, reading.worktree.head = .symbolic branch ∧
      reading.checkout.upstream branch = some upstream ∧ (reading.checkout.ref upstream = none ∨
        ∃ tip, reading.checkout.ref upstream = some tip ∧ Status.fits (reading.checkout.countOutside
          (reading.checkout.headCommit reading.worktree) [tip]) = 0) := by
  have hfits : Status.fits 0 = 0 := rfl
  obtain ⟨-, -, -, hremote⟩ := work_eq_ok h
  rw [hremote]
  cases hhead : reading.worktree.head with
  | detached oid => simp [Checkout.listing, hhead]
  | symbolic branch =>
    cases hupstream : reading.checkout.upstream branch with
    | none => simp [Checkout.listing, hhead, hupstream]
    | some upstream =>
      cases hthere : reading.checkout.ref upstream with
      | none => simp [Checkout.listing, hhead, hupstream, hthere, hfits]
      | some tip =>
        cases hborn : reading.checkout.ref branch with
        | none =>
          have hcount : reading.checkout.countOutside none [tip] = 0 :=
            Checkout.countOutside_eq_zero_iff.mpr (by simp)
          simp [Checkout.listing, Checkout.headCommit, hhead, hupstream, hthere, hborn, hfits, hcount]
        | some oid =>
          simp [Checkout.listing, Checkout.headCommit, hhead, hupstream, hthere, hborn]

theorem stands_eq_clear_iff : reading.stands = .clear ↔ ∃ running, reading.scan = .ok running ∧
    ∀ process ∈ running,
      bystander reading.host reading.own [reading.home] reading.spared process = false := by
  unfold Reading.stands
  cases reading.scan with
  | error error => simp
  | ok running =>
    have hsort := @sort_standing_eq_nil_iff reading.host reading.own [reading.home] reading.spared
      (fun _ ↦ false) running
    by_cases hnil : (sort reading.host reading.own [reading.home] reading.spared (fun _ ↦ false)
      running).2 = []
    · simp only [hnil, if_true, true_iff]
      refine ⟨running, rfl, fun process hprocess ↦ ?_⟩
      simpa using hsort.mp hnil process hprocess
    · simp only [hnil, if_false, reduceCtorEq, false_iff, not_exists, not_and]
      intro read hread hall
      obtain rfl := Except.ok.inj hread
      refine hnil (hsort.mpr fun process hprocess hbystander ↦ ?_)
      cases (hall process hprocess).symm.trans hbystander

theorem readSince_iff : reading.readSince = true ↔ ∃ read written, reading.heard = some read ∧
    reading.wroteOrigin = some written ∧ written < read := by
  unfold Reading.readSince
  cases reading.heard <;> cases reading.wroteOrigin <;> simp

/-! ### What the list says -/

/-- A quiet answer of a branch that is ahead has read an upstream and its distance as zero. -/
theorem quiet_iff_of_ahead (h : reading.work = .ok w) (hahead : 0 < w.divergence.ahead) :
    (∃ answer, reading.answer = some answer ∧ answer.Quiet) ↔ w.paths = 0 ∧ reading.stands = .clear ∧
      reading.remoteUrl.isSome = true ∧ reading.readSince = true ∧
      ∃ branch upstream, reading.worktree.head = .symbolic branch ∧
        reading.checkout.upstream branch = some upstream ∧ (reading.checkout.ref upstream = none ∨
          ∃ tip, reading.checkout.ref upstream = some tip ∧ Status.fits (reading.checkout.countOutside
            (reading.checkout.headCommit reading.worktree) [tip]) = 0) := by
  rw [quiet_iff h, unproved_eq_none_iff, remote_any_iff h]
  simp only [hahead.ne', false_or]
  rfl

/-- What is answered where the table could not be read. -/
theorem answer_of_unread (hstands : reading.stands = .unread) (hanswer : reading.answer = some answer) :
    answer = .uniqueLoss ∨ answer = .unknownEvidence := by
  cases hwork : reading.work with
  | error failure =>
    have hnone : reading.answer = none := by rw [Reading.answer, hwork]; rfl
    cases hnone.symm.trans hanswer
  | ok w =>
    rcases answer_cases hwork with ⟨-, h⟩ | ⟨-, hother, -⟩ | ⟨-, -, h⟩ | ⟨-, hother, -⟩ |
      ⟨-, hother, -⟩
    · exact .inl (Option.some.inj (hanswer.symm.trans h))
    · cases hstands.symm.trans hother
    · exact .inr (Option.some.inj (hanswer.symm.trans h))
    · cases hstands.symm.trans hother
    · cases hstands.symm.trans hother

/-- What is answered of a branch that is ahead where the remote was not read since. -/
theorem answer_of_stale (h : reading.work = .ok w) (hahead : 0 < w.divergence.ahead)
    (hsince : reading.readSince = false) (hanswer : reading.answer = some answer) :
    answer = .uniqueLoss ∨ answer = .blockingRuntime ∨ answer = .unknownEvidence := by
  rcases answer_cases h with ⟨-, h'⟩ | ⟨-, -, h'⟩ | ⟨-, -, h'⟩ | ⟨-, -, loss, hloss, h'⟩ |
    ⟨-, -, hunproved, -⟩
  · exact .inl (Option.some.inj (hanswer.symm.trans h'))
  · exact .inr (.inl (Option.some.inj (hanswer.symm.trans h')))
  · exact .inr (.inr (Option.some.inj (hanswer.symm.trans h')))
  · obtain rfl : answer = loss := Option.some.inj (hanswer.symm.trans h')
    exact (unproved_not_quiet hloss).imp_right .inr
  · rcases unproved_eq_none_iff.mp hunproved with hzero | ⟨-, hcurrent, -⟩
    · exact absurd hzero hahead.ne'
    · cases hsince.symm.trans hcurrent

/-- A branch with one commit of its own, whose upstream was pruned when the remote dropped it. -/
def pruned : Checkout where
  parents commit := if commit = ⟨2⟩ then [⟨1⟩] else []
  commits := [⟨2⟩, ⟨1⟩]
  ordered := by decide
  tree commit := ⟨commit.value⟩
  merge _ head := .clean ⟨head.value⟩
  refs := [⟨["refs", "heads", "fix"], ⟨2⟩⟩, ⟨["refs", "remotes", "origin", "main"], ⟨1⟩⟩]
  literal _ := none
  remotes := ["origin"]
  upstream branch :=
    if branch = ["refs", "heads", "fix"] then some ["refs", "remotes", "origin", "fix"] else none

def prunedHome : Reading where
  checkout := pruned
  worktree := ⟨.symbolic ["refs", "heads", "fix"], [], fun _ ↦ none⟩
  candidates := [["refs", "remotes", "origin", "main"]]
  scan := .ok []
  host := ⟨fun _ ↦ none, fun _ ↦ none, fun _ ↦ none⟩
  own := ⟨"fix", [], []⟩
  home := ["homes", "fix"]
  spared := []
  remoteUrl := some "/srv/shop.git"
  heard := some 2
  wroteOrigin := some 1

end Nodal.Listing
