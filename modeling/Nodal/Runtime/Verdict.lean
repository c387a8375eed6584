import Mathlib.Algebra.GroupWithZero.Nat
import Mathlib.Data.Bool.Basic
import Mathlib.Data.Char
import Mathlib.Data.List.Lex
import Mathlib.Data.Prod.Lex
import Nodal.Foundation.Sorted
import Nodal.Git.Checkout

/-!
# The verdict on a checkout's worktrees

`runtime/verdict.rs`, `output/view/verdict.rs`: one row for each worktree the repository names, the ones
that hold work that is nowhere else first. A reading that failed leaves its column as it was, and the
column starts unread where a count of commits belongs and at zero where a count of paths does. So a
worktree whose status could not be read, and all of whose commits were seen on a remote, has the row of
one that holds nothing.

The closing line and the order say what they say exactly where no such worktree is done, or is put behind
one that is empty (`honest_iff`).
-/

set_option autoImplicit false

namespace Nodal.Verdict

open Git Foundation

/-! ### A row -/

/-- How far a worktree is behind, and what it was measured against. -/
structure Behind where
  commits : ℕ
  reference : RefName
  /-- Whether that revision is of a remote. -/
  upstream : Bool
  deriving DecidableEq

/-- One worktree, as the verdict states it. -/
structure WorktreeRow where
  name : Text
  path : List Text
  branch : Option Text
  intent : Option Text
  done : Integration
  /-- Commits of it that no tip seen on a remote reaches, nothing where that could not be counted. -/
  unpushed : Option ℕ
  /-- Paths in it that carry work no commit holds. -/
  uncommitted : ℕ
  behind : Option Behind
  bytes : Option ℕ
  isFloor : Bool
  madeAt : Option ℕ
  /-- What is true of the row instead of a reading. -/
  note : Option Text
  deriving DecidableEq

namespace WorktreeRow

variable (row : WorktreeRow)

/-- Whether the row holds something that exists nowhere else. -/
def holdsUniqueWork : Bool := row.unpushed ≠ some 0 ∨ 0 < row.uncommitted

/-- Whether removing this worktree would cost nothing. -/
def doneAndEmpty : Bool := row.done.isIntegrated && !row.holdsUniqueWork

/-- What a row is sorted by: whether it holds nothing, whether it is done, how far it is behind with the
furthest first, and its name. -/
def key : Bool ×ₗ Bool ×ₗ ℕᵒᵈ ×ₗ Text :=
  toLex (!row.holdsUniqueWork, toLex (row.done.isIntegrated,
    toLex (OrderDual.toDual (row.behind.elim 0 Behind.commits), row.name)))

end WorktreeRow

/-- Put the worktrees a person has to deal with at the top. -/
def order (rows : List WorktreeRow) : List WorktreeRow :=
  rows.insertionSort (·.key ≤ ·.key)

/-! ### The readings -/

/-- One worktree of a repository, as `git worktree list --porcelain` states it, and what is there. -/
structure Registered where
  path : List Text
  branch : Option Text
  locked : Option Text
  prunable : Option Text
  worktree : Worktree

/-- What the machine says of the directories. -/
structure Machine where
  measure : List Text → ℕ × Bool
  madeAt : List Text → Option ℕ
  intent : List Text → Option Text

/-- A checkout, as the verdict reads it. -/
structure Reading where
  checkout : Checkout
  machine : Machine
  root : List Text
  /-- What is there at the root. -/
  main : Worktree
  /-- The branch every row is measured against, where there is one and it could be read. -/
  base : Option RefName
  registered : List Registered

def slashed (path : List Text) : Text := ['/'].intercalate path

/-- How a worktree is named. -/
def displayName (root path : List Text) : Text :=
  if root.isPrefixOf path then slashed (path.drop root.length)
  else if root ≠ [] ∧ root.dropLast.isPrefixOf path then
    "../".toList ++ slashed (path.drop root.dropLast.length)
  else '/' :: slashed path

/-- The word of a row that was not read, and the reason that was given for it. -/
def noted (word reason : Text) : Text :=
  if Text.trim reason = [] then word else word ++ " (".toList ++ Text.trim reason ++ ")".toList

/-- A row with the record's own facts on it and nothing read from the disk yet. -/
def blank (name : Text) (registered : Registered) : WorktreeRow where
  name := name
  path := registered.path
  branch := registered.branch
  intent := none
  done := .unknown
  unpushed := none
  uncommitted := 0
  behind := none
  bytes := none
  isFloor := false
  madeAt := none
  note := none

namespace Reading

variable (reading : Reading)

/-- The tips the checkout has seen on a remote, none where they could not be read. -/
def seen : List Oid :=
  (reading.main.ask .trackingTips reading.checkout.seenOnRemotes).toOption.getD []

/-- How many commits of a worktree none of the tips reaches. -/
def outside (worktree : Worktree) : Except Failure ℕ :=
  worktree.ask .countOutside
    (reading.checkout.countOutside (reading.checkout.headCommit worktree) reading.seen)

/-- Fill in what the Git reads say about one worktree. A read that fails leaves its own column off. -/
def state (worktree : Worktree) (row : WorktreeRow) : WorktreeRow :=
  let row := match reading.outside worktree with
    | .ok kept => { row with unpushed := some (min kept (2 ^ 32 - 1)) }
    | .error _ => row
  let row := match reading.checkout.status worktree with
    | .ok status => { row with uncommitted := min status.uncommitted.length (2 ^ 32 - 1) }
    | .error _ => row
  match reading.base with
  | none => row
  | some base => match reading.checkout.standing worktree base with
    | .ok standing =>
      { row with
        done := standing.integration
        behind := some ⟨standing.divergence.behind, base, 1 < base.length⟩ }
    | .error _ => row

/-- One worktree as a row. -/
def row (registered : Registered) : WorktreeRow :=
  let row := blank (displayName reading.root registered.path) registered
  match registered.locked with
  | some reason => { row with note := some (noted "locked".toList reason) }
  | none =>
    let (bytes, complete) := reading.machine.measure registered.path
    let row := { row with
      bytes := some bytes, isFloor := !complete, madeAt := reading.machine.madeAt registered.path }
    match registered.prunable with
    | some reason => { row with note := some (noted "prunable".toList reason) }
    | none =>
      let row := match registered.worktree.ask .gitDir () with
        | .ok _ => reading.state registered.worktree row
        | .error _ => { row with note := some "not a checkout".toList }
      { row with intent := reading.machine.intent registered.path }

/-- The worktrees other than the checkout itself. -/
def others : List Registered := reading.registered.filter (·.path ≠ reading.root)

/-- The rows, in the order they are printed. -/
def rows : List WorktreeRow := order (reading.others.map reading.row)

/-- The worktrees the closing line counts, and what they occupy. -/
def closing : ℕ × ℕ :=
  let removable := reading.rows.filter WorktreeRow.doneAndEmpty
  (removable.length, (removable.filterMap WorktreeRow.bytes).sum)

/-- The worktrees, in the order their rows are printed. -/
def printed : List Registered :=
  reading.others.insertionSort fun first second ↦ (reading.row first).key ≤ (reading.row second).key

end Reading

variable {reading : Reading} {registered : Registered}

/-! ### What the verdict says -/

/-- A worktree that was read and holds nothing that is nowhere else. -/
structure Reading.Empty (reading : Reading) (registered : Registered) : Prop where
  unlocked : registered.locked = none
  present : registered.prunable = none
  opens : registered.worktree.fails .gitDir = none
  clean : ∃ status, reading.checkout.status registered.worktree = .ok status ∧ status.uncommitted = []
  seen : reading.outside registered.worktree = .ok 0

/-- A worktree whose commits were all seen on a remote, and whose status could not be read. -/
structure Reading.Blind (reading : Reading) (registered : Registered) : Prop where
  unlocked : registered.locked = none
  present : registered.prunable = none
  opens : registered.worktree.fails .gitDir = none
  unread : ∃ failure, reading.checkout.status registered.worktree = .error failure
  seen : reading.outside registered.worktree = .ok 0

/-- The verdict counts no worktree as empty that was not read so, and prints none behind one that was. -/
structure Reading.Honest (reading : Reading) : Prop where
  counted : ∀ registered ∈ reading.printed, (reading.row registered).doneAndEmpty = true →
    reading.Empty registered
  ordered : reading.printed.Pairwise fun first second ↦ reading.Empty first → reading.Empty second

/-- What a worktree is done by: the base carries every change of it. -/
def Reading.isDone (reading : Reading) (worktree : Worktree) : Prop :=
  ∃ base standing, reading.base = some base ∧ reading.checkout.standing worktree base = .ok standing ∧
    standing.integration.isIntegrated = true

/-! ### What a row shows -/

/-- The row of a worktree that was read: the readings, and what the machine says of the directory. -/
theorem row_of_read (hunlocked : registered.locked = none) (hpresent : registered.prunable = none)
    (hopens : registered.worktree.fails .gitDir = none) :
    ∃ start : WorktreeRow, start.done = .unknown ∧ start.unpushed = none ∧ start.uncommitted = 0 ∧
      reading.row registered = { reading.state registered.worktree start with
        intent := reading.machine.intent registered.path } := by
  refine ⟨{ blank (displayName reading.root registered.path) registered with
    bytes := some (reading.machine.measure registered.path).1
    isFloor := !(reading.machine.measure registered.path).2
    madeAt := reading.machine.madeAt registered.path }, rfl, rfl, rfl, ?_⟩
  simp only [Reading.row, hunlocked, hpresent, Worktree.ask, hopens]

/-- A worktree that was not read has a row that counts nothing. -/
theorem unpushed_of_unread (hunread : ¬(registered.locked = none ∧ registered.prunable = none ∧
    registered.worktree.fails .gitDir = none)) : (reading.row registered).unpushed = none := by
  unfold Reading.row
  cases hlocked : registered.locked with
  | some reason => rfl
  | none =>
    cases hprunable : registered.prunable with
    | some reason => rfl
    | none =>
      cases hopens : registered.worktree.fails .gitDir with
      | some failure =>
        simp only [Worktree.ask, hopens]
        rfl
      | none => exact absurd ⟨hlocked, hprunable, hopens⟩ hunread

variable {worktree : Worktree} {row : WorktreeRow}

theorem state_unpushed (hstart : row.unpushed = none) :
    (reading.state worktree row).unpushed = some 0 ↔ reading.outside worktree = .ok 0 := by
  have hcolumn : (reading.state worktree row).unpushed =
      (reading.outside worktree).toOption.map (min · (2 ^ 32 - 1)) := by
    unfold Reading.state
    cases reading.outside worktree <;> cases reading.checkout.status worktree <;>
      cases reading.base with
      | none => simp [hstart, Except.toOption]
      | some base =>
        cases hstanding : reading.checkout.standing worktree base <;>
          simp [hstart, hstanding, Except.toOption]
  rw [hcolumn]
  cases reading.outside worktree with
  | error failure => simp [Except.toOption]
  | ok kept => simp [Except.toOption]

theorem state_uncommitted (hstart : row.uncommitted = 0) :
    (reading.state worktree row).uncommitted = 0 ↔
      ∀ status, reading.checkout.status worktree = .ok status → status.uncommitted = [] := by
  have hcolumn : (reading.state worktree row).uncommitted =
      (reading.checkout.status worktree).toOption.elim 0 (min ·.uncommitted.length (2 ^ 32 - 1)) := by
    unfold Reading.state
    cases reading.outside worktree <;> cases reading.checkout.status worktree <;>
      cases reading.base with
      | none => simp [hstart, Except.toOption]
      | some base =>
        cases hstanding : reading.checkout.standing worktree base <;>
          simp [hstart, hstanding, Except.toOption]
  rw [hcolumn]
  cases reading.checkout.status worktree with
  | error failure => simp [Except.toOption]
  | ok status => simp [Except.toOption]

theorem state_done (hstart : row.done = .unknown) :
    (reading.state worktree row).done.isIntegrated = true ↔ reading.isDone worktree := by
  unfold Reading.state Reading.isDone
  cases reading.outside worktree <;> cases reading.checkout.status worktree <;>
    cases reading.base with
    | none => simp [hstart, Integration.isIntegrated]
    | some base =>
      cases hstanding : reading.checkout.standing worktree base <;>
        simp [hstart, hstanding, Integration.isIntegrated]

theorem isIntegrated_row_iff (hunlocked : registered.locked = none) (hpresent : registered.prunable = none)
    (hopens : registered.worktree.fails .gitDir = none) :
    (reading.row registered).done.isIntegrated = true ↔ reading.isDone registered.worktree := by
  obtain ⟨start, hdone, -, -, hrow⟩ := row_of_read hunlocked hpresent hopens
  rw [hrow]
  exact state_done hdone

/-- A row shows no unique work of a worktree that was read empty, or whose status is not known. -/
theorem holdsUniqueWork_eq_false_iff : (reading.row registered).holdsUniqueWork = false ↔
    reading.Empty registered ∨ reading.Blind registered := by
  have hshown : (reading.row registered).holdsUniqueWork = false ↔
      (reading.row registered).unpushed = some 0 ∧ (reading.row registered).uncommitted = 0 := by
    simp [WorktreeRow.holdsUniqueWork]
  rw [hshown]
  by_cases hread : registered.locked = none ∧ registered.prunable = none ∧
    registered.worktree.fails .gitDir = none
  · obtain ⟨hunlocked, hpresent, hopens⟩ := hread
    obtain ⟨start, -, hunpushed, huncommitted, hrow⟩ :=
      row_of_read hunlocked hpresent hopens
    have hcounts : (reading.row registered).unpushed = some 0 ↔
        reading.outside registered.worktree = .ok 0 := by
      rw [hrow]
      exact state_unpushed hunpushed
    have hpaths : (reading.row registered).uncommitted = 0 ↔ ∀ status,
        reading.checkout.status registered.worktree = .ok status → status.uncommitted = [] := by
      rw [hrow]
      exact state_uncommitted huncommitted
    rw [hcounts, hpaths]
    constructor
    · rintro ⟨hseen, hclean⟩
      cases hstatus : reading.checkout.status registered.worktree with
      | ok status =>
        exact .inl ⟨hunlocked, hpresent, hopens, ⟨status, hstatus, hclean status hstatus⟩, hseen⟩
      | error failure => exact .inr ⟨hunlocked, hpresent, hopens, ⟨failure, hstatus⟩, hseen⟩
    · rintro (hempty | hblind)
      · obtain ⟨status, hstatus, hclean⟩ := hempty.clean
        refine ⟨hempty.seen, fun other hother ↦ ?_⟩
        cases hstatus.symm.trans hother
        exact hclean
      · obtain ⟨failure, hstatus⟩ := hblind.unread
        exact ⟨hblind.seen, fun other hother ↦ nomatch hstatus.symm.trans hother⟩
  · rw [unpushed_of_unread hread]
    constructor
    · rintro ⟨hnone, -⟩
      cases hnone
    · rintro (hempty | hblind)
      · exact absurd ⟨hempty.unlocked, hempty.present, hempty.opens⟩ hread
      · exact absurd ⟨hblind.unlocked, hblind.present, hblind.opens⟩ hread

/-- What was read empty was read. -/
theorem Reading.Empty.not_blind (hempty : reading.Empty registered) : ¬reading.Blind registered := by
  intro hblind
  obtain ⟨status, hstatus, -⟩ := hempty.clean
  obtain ⟨failure, hfailure⟩ := hblind.unread
  cases hstatus.symm.trans hfailure

/-! ### Where the verdict is honest -/

theorem mem_printed : registered ∈ reading.printed ↔ registered ∈ reading.others :=
  List.mem_insertionSort _

/-- Every worktree that is counted was read empty, where the blind ones are not done. -/
theorem counted_iff : (∀ registered ∈ reading.printed,
      (reading.row registered).doneAndEmpty = true → reading.Empty registered) ↔
    ∀ registered ∈ reading.others, reading.Blind registered → ¬reading.isDone registered.worktree := by
  refine forall_congr' fun registered ↦ ?_
  rw [mem_printed]
  refine imp_congr_right fun _ ↦ ?_
  have hshown : (reading.row registered).holdsUniqueWork = false ↔ _ :=
    holdsUniqueWork_eq_false_iff
  simp only [WorktreeRow.doneAndEmpty, Bool.and_eq_true, Bool.not_eq_true']
  constructor
  · intro hcounted hblind hdone
    have hintegrated := (isIntegrated_row_iff hblind.unlocked hblind.present hblind.opens).mpr hdone
    exact (hcounted ⟨hintegrated, hshown.mpr (.inr hblind)⟩).not_blind hblind
  · rintro hsighted ⟨hintegrated, hnothing⟩
    rcases hshown.mp hnothing with hempty | hblind
    · exact hempty
    · exact absurd ((isIntegrated_row_iff hblind.unlocked hblind.present hblind.opens).mp hintegrated)
        (hsighted hblind)

/-- A row that shows nothing is before no row that shows something, so what is sorted behind an empty
worktree is empty or blind. -/
theorem behind_empty_iff {first second : Registered}
    (hkey : (reading.row first).key ≤ (reading.row second).key) :
    (reading.Empty first → reading.Empty second) ↔ (reading.Empty first → ¬reading.Blind second) := by
  refine imp_congr_right fun hempty ↦ ⟨Reading.Empty.not_blind, fun hsighted ↦ ?_⟩
  have hfirst : (reading.row first).holdsUniqueWork = false :=
    holdsUniqueWork_eq_false_iff.mpr (.inl hempty)
  have hsecond : (reading.row second).holdsUniqueWork = false := by
    by_contra hshows
    rw [Bool.not_eq_false] at hshows
    simp only [WorktreeRow.key, hfirst, hshows, Prod.Lex.toLex_le_toLex, Bool.not_false,
      Bool.not_true] at hkey
    rcases hkey with hless | ⟨heq, -⟩
    · exact absurd hless (by decide)
    · cases heq
  rcases holdsUniqueWork_eq_false_iff.mp hsecond with hread | hblind
  · exact hread
  · exact absurd hblind hsighted

/-- No worktree stands behind an empty one without being empty, where no blind one is sorted there. -/
theorem ordered_iff :
    reading.printed.Pairwise (fun first second ↦ reading.Empty first → reading.Empty second) ↔
      reading.others.Pairwise (Sorted.InKeyOrder (fun registered ↦ (reading.row registered).key)
        fun first second ↦ reading.Empty first → ¬reading.Blind second) := by
  refine Sorted.pairwise_insertionSort_iff.trans (Iff.of_eq ?_)
  congr 1
  ext first second
  refine and_congr (imp_congr_right fun hkey ↦ ?_) (imp_congr_right fun hkey ↦ ?_)
  · exact behind_empty_iff hkey
  · exact behind_empty_iff hkey.le

/-- The verdict calls a worktree done and empty, and puts it in its place, as it was read, if and only if
no worktree whose commits were all seen and whose status could not be read is done, or is sorted behind
one that is empty. -/
theorem honest_iff : reading.Honest ↔
    (∀ registered ∈ reading.others, reading.Blind registered → ¬reading.isDone registered.worktree) ∧
      reading.others.Pairwise (Sorted.InKeyOrder (fun registered ↦ (reading.row registered).key)
        fun first second ↦ reading.Empty first → ¬reading.Blind second) := by
  rw [← counted_iff, ← ordered_iff]
  exact ⟨fun honest ↦ ⟨honest.counted, honest.ordered⟩, fun h ↦ ⟨h.1, h.2⟩⟩

private theorem pushed_ordered : Ancestry.NewestFirst (fun _ ↦ []) [(⟨1⟩ : Oid)] := by
  decide

/-- A repository of one commit, which its one remote has. -/
def pushed : Checkout where
  parents := fun _ ↦ []
  commits := [⟨1⟩]
  ordered := pushed_ordered
  tree := fun _ ↦ ⟨10⟩
  merge := fun _ _ ↦ .clean ⟨10⟩
  refs := [⟨["refs", "heads", "main"], ⟨1⟩⟩, ⟨["refs", "heads", "fix"], ⟨1⟩⟩,
    ⟨["refs", "remotes", "origin", "main"], ⟨1⟩⟩]
  literal := fun _ ↦ none
  remotes := ["origin"]
  upstream := fun _ ↦ none

/-- A worktree with one path nothing has committed, whose index another process has left unreadable. -/
def unreadable : Registered where
  path := ["srv".toList, "shop-fix".toList]
  branch := some "fix".toList
  locked := none
  prunable := none
  worktree := ⟨.symbolic ["refs", "heads", "fix"], [.untracked "notes.md".toList],
    fun query ↦ if query = .status then some .exit else none⟩

def shop : Reading where
  checkout := pushed
  machine := ⟨fun _ ↦ (4096, true), fun _ ↦ none, fun _ ↦ none⟩
  root := ["srv".toList, "shop".toList]
  main := ⟨.symbolic ["refs", "heads", "main"], [], fun _ ↦ none⟩
  base := some ["origin", "main"]
  registered := [unreadable]

/-- The verdict counts a worktree as done and empty whose uncommitted path it could not read. -/
theorem unread_status_is_counted : shop.closing = (1, 4096) ∧ ¬shop.Honest := by
  have hclosing : shop.closing = (1, 4096) := by decide +kernel
  have hprinted : unreadable ∈ shop.printed := mem_printed.mpr (by simp [Reading.others, shop, unreadable])
  have hcounted : (shop.row unreadable).doneAndEmpty = true := by decide +kernel
  refine ⟨hclosing, fun honest ↦ ?_⟩
  obtain ⟨status, hstatus, -⟩ := (honest.counted unreadable hprinted hcounted).clean
  cases hstatus

end Nodal.Verdict
