import Mathlib.Algebra.Order.BigOperators.Group.List
import Mathlib.Data.String.Basic
import Nodal.Foundation.Table
import Nodal.Removal.Covered

/-!
# Reading a trashed home again

`model/trash.rs`, `store/trash.rs`, and the reading `lifecycle/ops/gc.rs` makes of a home before it
removes it. The reading is the one a reclaim makes, over the refs the reclaim was refused over, and
the paths of the working tree decide nothing: the loss set it hands to the judge has the commits and
no path.

A home it lets go is one every commit of which was looked for and is somewhere else
(`onlyHere_eq_none`), where the reading of `HEAD` answered.
-/

set_option autoImplicit false

namespace Nodal.Trash

open Git Removal Foundation

/-! ### Rows -/

/-- The identifier of an environment, by the text of its ULID. -/
abbrev EnvId := String

/-- The identifier of a project, by the text of its ULID. -/
abbrev ProjectId := String

/-- Whole seconds since the epoch, as the columns hold them. -/
abbrev Instant := ℤ

/-- One repository outside a home that held a copy of the home's commits. -/
structure Outside where
  repository : Path
  references : List String
  commits : ℕ
  deriving DecidableEq, Repr

/-- What a reclaim's uniqueness check decided about the home it trashed. -/
inductive Rested
  | unrecorded
  | safe (copies : List Outside)
  | forced
  deriving DecidableEq, Repr

/-- Whether the home must be read again before the retention may remove it. -/
def Rested.reAsks : Rested → Bool
  | forced => false
  | _ => true

/-- What is added to a trashed home's name while the sweep removes it. -/
def REMOVING : String := ".removing"

/-- The name a home is under while the sweep removes it. -/
def beside (path : Path) : Path := path ++ REMOVING

/-- One reclaimed home, kept until it expires. Its directory is named by the last characters of an
identifier, which are digits and capitals, so no row's path is a removing name. -/
structure Trashed where
  environmentId : EnvId
  projectId : ProjectId
  /-- Where the home is now. -/
  path : Path
  /-- The ref a forced reclaim committed the work to. -/
  snapshot : Option RefName
  rested : Rested
  trashedAt : Instant
  /-- The first instant the sweep may remove it. -/
  expiresAt : Instant
  unmarked : ∀ other, path ≠ beside other

instance : DecidableEq Trashed := fun
  | ⟨e, p, path, s, r, t, x, _⟩, ⟨e', p', path', s', r', t', x', _⟩ =>
    decidable_of_iff (e = e' ∧ p = p' ∧ path = path' ∧ s = s' ∧ r = r' ∧ t = t' ∧ x = x')
      (by simp)

theorem beside_injective {path path' : Path} (h : beside path = beside path') : path = path' := by
  have hlist := congrArg String.toList h
  simp only [beside, String.toList_append, List.append_cancel_right_eq] at hlist
  exact String.toList_inj.mp hlist

/-- The trash: one row for an environment, and one directory for a row, which the source takes the
characters that name it to see to. -/
structure Rows where
  table : Table EnvId Trashed
  keyed : ∀ row ∈ table.rows, row.2.environmentId = row.1
  apart : ∀ e ∈ table.values, ∀ e' ∈ table.values, e.path = e'.path → e = e'

namespace Rows

/-- Everything whose retention has run out, oldest first. -/
def listExpired (rows : Rows) (now : Instant) : List Trashed :=
  (rows.table.values.filter (·.expiresAt ≤ now)).insertionSort fun a b ↦
    a.trashedAt < b.trashedAt ∨ a.trashedAt = b.trashedAt ∧ a.environmentId ≤ b.environmentId

/-- Forget one entry. -/
def remove (rows : Rows) (environment : EnvId) : Rows where
  table := rows.table.filter fun key _ ↦ key ≠ environment
  keyed := fun row hrow ↦ rows.keyed row (List.mem_filter.mp hrow).1
  apart := by
    have hsub : ∀ e ∈ (rows.table.filter fun key _ ↦ key ≠ environment).values,
        e ∈ rows.table.values := fun e he ↦ by
      obtain ⟨row, hrow, rfl⟩ := List.mem_map.mp he
      exact List.mem_map_of_mem (List.mem_filter.mp hrow).1
    exact fun e he e' he' ↦ rows.apart e (hsub e he) e' (hsub e' he')

instance : Membership Trashed Rows := ⟨fun rows entry ↦ entry ∈ rows.table.values⟩

variable {rows : Rows} {entry entry' : Trashed} {environment : EnvId}

theorem mem_iff : entry ∈ rows ↔ rows.table.get? entry.environmentId = some entry := by
  constructor
  · intro h
    obtain ⟨key, hkey⟩ := Table.mem_values_iff.mp h
    have hid : entry.environmentId = key := rows.keyed _ (Table.mem_rows_iff.mpr hkey)
    rw [hid]
    exact hkey
  · exact fun h ↦ Table.mem_values_iff.mpr ⟨_, h⟩

theorem mem_remove :
    entry ∈ rows.remove environment ↔ entry ∈ rows ∧ entry.environmentId ≠ environment := by
  rw [mem_iff, mem_iff]
  change (rows.table.filter fun key _ ↦ key ≠ environment).get? _ = _ ↔ _
  rw [Table.get?_filter_eq_some, decide_eq_true_eq]

theorem mem_of_listExpired {now : Instant} (h : entry ∈ rows.listExpired now) : entry ∈ rows :=
  (List.mem_filter.mp ((List.mem_insertionSort _).mp h)).1

/-- An expired row is listed once. -/
theorem pairwise_listExpired {now : Instant} :
    (rows.listExpired now).Pairwise fun e e' ↦ e.environmentId ≠ e'.environmentId := by
  have hvalues : rows.table.values.Pairwise fun e e' ↦ e.environmentId ≠ e'.environmentId :=
    List.pairwise_map.mpr (rows.table.sorted.imp_of_mem fun {row row'} hrow hrow' hlt ↦ by
      rw [rows.keyed row hrow, rows.keyed row' hrow']
      exact hlt.ne)
  exact ((List.perm_insertionSort _ _).symm.pairwise (hvalues.filter _)) fun h ↦ Ne.symm h

end Rows

/-! ### The reading -/

/-- The commits of a home that nothing on this machine can prove exist anywhere else. -/
structure Unpushed where
  count : ℕ
  sample : List Oid
  deriving DecidableEq, Repr

/-- The one finding the commits of an assessment make. -/
def unpushed (assessment : Assessment) : Option Unpushed :=
  let kept := assessment.commits.filter (!·.copies.survives)
  let count := (kept.map CommitGroup.count).sum
  if count = 0 then none else some ⟨count, (kept.flatMap CommitGroup.sample).take SAMPLE⟩

/-- The commits of a trashed home that no ref outside the directory reaches: nothing where the sweep
may remove it. -/
def onlyHere (disk : Disk) (input : Input) (now : Seconds) : Except Failure (Option Unpushed) := do
  let assessment ← assess disk input
  let commits : LossSet := ⟨input.home, [], assessment.commits⟩
  if (judge disk commits ⟨none, [], now⟩).isSafe then return none
  return unpushed assessment

/-- What a sweep asks of a row, given the root of its project and the repositories beside it. -/
def Trashed.input (entry : Trashed) (root : Path) (siblings : List Path) : Input :=
  { Input.refusal entry.path (some root) siblings with work := entry.snapshot }

/-- A commit a reading looked for, and that is outside the home. -/
def Found (disk : Disk) (input : Input) (commit : Oid) : Prop :=
  (∃ repository, disk.repository input.home = some repository ∧
    ∃ tip ∈ input.tips disk repository.refs, repository.Holds tip commit) ∧
    Covered disk input commit

variable {disk : Disk} {input : Input} {now : Seconds} {assessment : Assessment}

/-- No finding over the commits is that no group of them refuses. -/
theorem survives_of_unpushed (h : unpushed assessment = none) :
    ∀ group ∈ assessment.commits, group.copies.needs = none := by
  intro group hgroup
  obtain ⟨part, hpart, hcommits⟩ := List.mem_filterMap.mp hgroup
  have hcount : 0 < group.count := by
    unfold commitGroup at hcommits
    split at hcommits
    · cases hcommits
    · next hsome =>
      cases hcommits
      exact List.length_pos_iff.mpr hsome
  by_contra hneeds
  have hkept : group ∈ assessment.commits.filter (!·.copies.survives) := by
    refine List.mem_filter.mpr ⟨hgroup, ?_⟩
    simpa [Copies.survives, ← Option.ne_none_iff_isSome] using hneeds
  have hle := List.single_le_sum (fun n _ ↦ Nat.zero_le n) group.count
    (List.mem_map_of_mem (f := CommitGroup.count) hkept)
  dsimp only [unpushed] at h
  split at h
  · omega
  · cases h

/-- The judge lets the commits go exactly where no group of them refuses, because no home is removed
with this one and nothing is asked of the process table. -/
theorem judge_commits {loss : LossSet} (hpaths : loss.paths = []) :
    (judge disk loss ⟨none, [], now⟩).isSafe = true ↔
      ∀ group ∈ loss.commits, group.copies.needs = none := by
  have hjoint : joint disk loss [] = [] := List.filterMap_eq_nil_iff.mpr fun group _ ↦
    jointLoss_eq_none.mpr fun _ _ ↦ rfl
  rw [judge_safe_iff]
  simp only [refusals, unreads, hpaths, hjoint, standingLoss, tableUnread, List.filterMap_nil,
    Option.bind_none, Option.toList_none, List.append_nil, List.nil_append,
    List.filterMap_eq_nil_iff, commitLoss_eq_none, commitUnread_eq_none]
  constructor
  · rintro ⟨hlost, hunread⟩ group hgroup
    rcases group.copies.needs_cases with hneeds | hneeds | hneeds
    · exact hneeds
    · exact absurd hneeds (hlost group hgroup)
    · exact absurd hneeds (hunread group hgroup)
  · intro hnone
    exact ⟨fun group hgroup ↦ by simp [hnone group hgroup],
      fun group hgroup ↦ by simp [hnone group hgroup]⟩

/-- A home the reading lets go: every commit of it was looked for and is somewhere else.

Assumes: the reading of `HEAD` answers, or the refs already reach whatever it would say. -/
theorem onlyHere_eq_none (hhead : HeadRead disk input) (h : onlyHere disk input now = .ok none) :
    ∀ commit, InHome disk input commit → Found disk input commit := by
  unfold onlyHere at h
  cases hassess : assess disk input with
  | error failure => simp [hassess, bind, Except.bind] at h
  | ok assessment =>
    have hneeds : ∀ group ∈ assessment.commits, group.copies.needs = none := by
      simp only [hassess, bind, Except.bind, pure, Except.pure] at h
      split at h
      · next hsafe => exact (judge_commits rfl).mp hsafe
      · exact survives_of_unpushed (Except.ok.inj h)
    have hparts : ∀ part ∈ assessment.history.parts, part.2 = [] ∨ part.1.needs = none :=
      parts_of_commits
        (fun group hgroup ↦ commitLoss_eq_none.mpr (by simp [hneeds group hgroup]))
        (fun group hgroup ↦ commitUnread_eq_none.mpr (by simp [hneeds group hgroup]))
    obtain ⟨status, found, _, hfound, rfl⟩ := assess_eq_ok hassess
    intro commit hcommit
    have hinside := hcommit
    obtain ⟨repository, hrepository, _⟩ := hinside
    exact ⟨⟨repository, hrepository, tips_reach hrepository hhead hcommit⟩,
      covered_of_parts hhead hfound hparts hcommit⟩

/-- A reading that found every commit of a home has read its `HEAD`. -/
theorem headRead_of_found (h : ∀ commit, InHome disk input commit → Found disk input commit) :
    HeadRead disk input := by
  intro repository hrepository
  refine (tips_reach_iff hrepository).mp (fun commit hcommit ↦ ?_) repository hrepository
  obtain ⟨⟨other, hother, hreach⟩, -⟩ := h commit hcommit
  obtain rfl : repository = other := Option.some.inj (hrepository.symm.trans hother)
  exact hreach

end Nodal.Trash
