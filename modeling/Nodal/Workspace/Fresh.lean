import Nodal.Workspace.Relocate

/-!
# A fresh home, and the commit it stands at

`workspace/tracked.rs` and two steps of `lifecycle/ops/new.rs`: the gate that settles an exclusion
list against what the source tracks, the clone, and the sweep of the clone. A row of the table that
the commit tracks yields, and the copy keeps what it names; a row of the recipe that it tracks refuses
the copy.

The list of the clone is settled and the list of the sweep is not. So a home has what the commit
tracks exactly where no directory above it, or at it, is one the sweep looks for (`fresh_iff`).
-/

set_option autoImplicit false

namespace Nodal.Workspace

open Foundation

/-! ### The gate -/

/-- A base, and what Git says in it. -/
structure Base (κ : Type) where
  tree : FileTree κ
  /-- Where it is. -/
  path : String
  /-- Whether Git opens it. -/
  opens : Bool
  /-- What the commit at `HEAD` tracks, where `HEAD` names one. -/
  head : Option (List TreePath)
  revParseFails : Option String
  lsTreeFails : Option String

variable {κ : Type}

/-- What `HEAD` tracks. -/
def Base.tracked (base : Base κ) : List TreePath :=
  base.head.getD []

/-- The entries `git ls-tree` lists for literal paths: the ones the tree has something at. -/
def lsTree (paths pathspecs : List TreePath) : List TreePath :=
  pathspecs.filter fun pathspec ↦ paths.any (pathspec.isPrefixOf ·)

/-- Every row of a list that the commit at `HEAD` tracks, in the order the list holds them. -/
def tracked (base : Base κ) (excludes : Excludes) : Except Error (List Excluded) :=
  if excludes.rows = [] then .ok []
  else match base.revParseFails, base.head, base.lsTreeFails with
    | some why, _, _ => .error (.git why)
    | none, none, _ => .ok []
    | none, some _, some why => .error (.git why)
    | none, some paths, none =>
      let entries := lsTree paths (excludes.rows.map Excluded.path)
      .ok (excludes.rows.filter fun row ↦ entries.any (row.path.isPrefixOf ·))

/-- A default row a copy kept because the source tree tracks what it names. -/
structure Kept where
  path : TreePath
  reason : String
  deriving DecidableEq, Repr

/-- The note a report prints: the row, and why it yielded. -/
def Kept.note (kept : Kept) : String :=
  "/".intercalate kept.path ++ " is excluded by default (" ++ kept.reason ++
    "), but the commit tracks it, so the copy keeps it"

/-- Settle a list against what the source tracks: the rows that yielded, and the list without them. -/
def enforce (base : Base κ) (excludes : Excludes) : Except Error (List Kept × Excludes) :=
  if base.opens then do
    let rows ← tracked base excludes
    let askedFor := (rows.filter (·.origin = .recipe)).map Excluded.path
    if askedFor ≠ [] then .error (.excludesTrackedPath askedFor)
    else return (rows.map fun row ↦
        ⟨row.path, (reasonFor row.path).getD "a default row of the exclusion table"⟩,
      rows.foldl (fun list row ↦ list.keep row.path) excludes)
  else .ok ([], excludes)

/-! ### The two steps -/

/-- What a recipe says of the two lists. -/
structure Recipe where
  exclude : List (List Component)
  invalidate : List (List Component)
  deriving DecidableEq, Repr

/-- Clone the base: the home, and the default rows that yielded. What was there goes first. -/
def Materialize.apply (faults : Faults) (base : Base κ) (excludes : Excludes) :
    Except Error (FileTree κ × List Kept) := do
  let (kept, excludes) ← enforce base excludes
  match faults.removes [] with
  | some why => .error (.io [] why)
  | none =>
    let home ← materialize faults base.tree excludes
    return (home, kept)

/-- Remove the caches the copy cannot use where it is now. A sweep that removed nothing has no report. -/
def Relocate.apply (faults : Faults) (base : Base κ) (home : FileTree κ) (path : String)
    (relocator : InvalidateCache) : Except Error (FileTree κ × Option Report) := do
  let (home, report) ← relocate faults relocator home base.path path
  return (home, if report.changedNothing then none else some report)

/-- The clone step, and then the relocation step. -/
def fresh (faults : Faults) (base : Base κ) (recipe : Recipe) (path : String) :
    Except Error (FileTree κ × List Kept × Option Report) := do
  let (home, kept) ← Materialize.apply faults base (.withRecipe recipe.exclude)
  let (home, report) ← Relocate.apply faults base home path (.withRecipe recipe.invalidate)
  return (home, kept, report)

/-! ### What the gate leaves on the list -/

variable {faults : Faults} {base : Base κ} {home : FileTree κ} {excludes settled : Excludes}
  {kept : List Kept}

/-- A path, or one under it, is tracked. -/
def Covers (base : Base κ) (path : TreePath) : Prop :=
  ∃ tracked ∈ base.tracked, path <+: tracked

/-- The rows Git names are the ones something tracked is under. -/
theorem tracked_eq_ok {rows : List Excluded} (h : tracked base excludes = .ok rows) (row : Excluded) :
    row ∈ rows ↔ row ∈ excludes.rows ∧ Covers base row.path := by
  unfold tracked at h
  split at h
  · next hempty =>
    cases h
    simp [hempty]
  · split at h
    · cases h
    · next hhead =>
      cases h
      simp [Covers, Base.tracked, hhead]
    · cases h
    · next paths _ hhead _ =>
      cases h
      simp only [lsTree, List.mem_filter, List.any_filter, List.any_map, List.any_eq_true,
        Function.comp, Bool.and_eq_true, List.isPrefixOf_iff_prefix, Covers, Base.tracked, hhead,
        Option.getD_some]
      refine and_congr_right fun hrow ↦ ⟨?_, fun hcovers ↦ ⟨row, hrow, hcovers, List.prefix_refl _⟩⟩
      rintro ⟨other, _, ⟨path, hpath, hunder⟩, hancestor⟩
      exact ⟨path, hpath, hancestor.trans hunder⟩

theorem mem_foldl_keep {rows : List Excluded} {row : Excluded} :
    row ∈ (rows.foldl (fun list row ↦ list.keep row.path) excludes).rows ↔
      row ∈ excludes.rows ∧ ∀ taken ∈ rows, row.path ≠ taken.path := by
  induction rows generalizing excludes with
  | nil => simp
  | cons first rest ih =>
    rw [List.foldl_cons, ih]
    simp [Excludes.keep, and_assoc]

/-- What the gate leaves on the list is what Git was not asked about or tracks nothing under. -/
theorem enforce_eq_ok (h : enforce base excludes = .ok (kept, settled)) :
    (∀ row, row ∈ settled.rows ↔
      row ∈ excludes.rows ∧ ¬(base.opens = true ∧ Covers base row.path)) ∧
    ∀ row ∈ kept, Covers base row.path := by
  unfold enforce at h
  split at h
  · next hopens =>
    obtain ⟨rows, hrows, h⟩ := Git.bind_eq_ok h
    have hmem := tracked_eq_ok hrows
    dsimp only at h
    split at h
    · cases h
    · cases h
      constructor
      · intro row
        rw [mem_foldl_keep]
        refine and_congr_right fun hrow ↦ ?_
        simp only [hopens, true_and]
        constructor
        · exact fun hapart hcovers ↦ hapart row ((hmem row).mpr ⟨hrow, hcovers⟩) rfl
        · exact fun huncovered taken htaken heq ↦ huncovered (heq ▸ ((hmem taken).mp htaken).2)
      · intro row hrow
        obtain ⟨taken, htaken, rfl⟩ := List.mem_map.mp hrow
        exact ((hmem taken).mp htaken).2
  · next hclosed =>
    cases h
    simp [hclosed]

/-! ### What a home has of its base -/

/-- A home has what the base's `HEAD` tracks, all that is under `.git`, and each row that yielded to
something tracked. -/
structure Fresh (base : Base κ) (kept : List Kept) (home : FileTree κ) : Prop where
  tracked : ∀ path ∈ base.tracked, ∀ entry, base.tree.get? path = some entry → copied entry = true →
    home.get? path = some entry
  git : ∀ path, [".git"] <+: path → ∀ entry, base.tree.get? path = some entry →
    copied entry = true → home.get? path = some entry
  kept : ∀ row ∈ kept, ∀ path ∈ base.tracked, row.path <+: path → ∀ entry,
    base.tree.get? path = some entry → copied entry = true →
    home.get? row.path = base.tree.get? row.path

/-- No list of the recipe or of the table reaches what a home must have. A row at a tracked path, at
one under `.git` or above such a path is one Git was asked about and tracks something under; and no
directory there is one the sweep looks for. -/
def Spares (base : Base κ) (recipe : Recipe) : Prop :=
  ∀ path entry, base.tree.get? path = some entry → copied entry = true →
    path ∈ base.tracked ∨ [".git"] <+: path →
    (∀ row ∈ (Excludes.withRecipe recipe.exclude).rows, row.path <+: path →
      base.opens = true ∧ Covers base row.path) ∧
    ∀ above, above <+: path →
      ¬Matched (.withRecipe recipe.invalidate) base.tree above

/-- What a home has after the two steps: what the base has and neither the settled list nor the sweep
takes. -/
theorem get?_fresh {recipe : Recipe} {place : String} {report : Option Report}
    (h : fresh faults base recipe place = .ok (home, kept, report)) :
    ∃ settled, enforce base (.withRecipe recipe.exclude) = .ok (kept, settled) ∧
      ∀ path entry, home.get? path = some entry ↔
        (base.tree.get? path = some entry ∧ copied entry = true) ∧
          settled.excludes path = false ∧
          ∀ above, above <+: path → ¬Matched (.withRecipe recipe.invalidate) base.tree above := by
  obtain ⟨⟨clone, kept₁⟩, hclone, h⟩ := Git.bind_eq_ok h
  obtain ⟨⟨after, report₁⟩, hsweep, h⟩ := Git.bind_eq_ok h
  cases h
  obtain ⟨⟨kept₂, settled⟩, henforce, hclone⟩ := Git.bind_eq_ok hclone
  dsimp only at hclone
  split at hclone
  · cases hclone
  · obtain ⟨clone₁, hmaterialize, hclone⟩ := Git.bind_eq_ok hclone
    cases hclone
    obtain ⟨⟨swept, report₂⟩, hrelocate, hsweep⟩ := Git.bind_eq_ok hsweep
    cases hsweep
    refine ⟨settled, henforce, fun path entry ↦ ?_⟩
    have hcopy := get?_materialize hmaterialize
    rw [get?_relocate hrelocate, hcopy path]
    by_cases hexcluded : settled.excludes path = true
    · simp [hexcluded]
    · rw [if_neg hexcluded, Option.filter_eq_some_iff]
      rw [Bool.not_eq_true] at hexcluded
      rw [and_iff_right hexcluded]
      refine and_congr_right fun _ ↦ forall₂_congr fun above hancestor ↦
        not_congr (and_congr_left fun _ ↦ ?_)
      -- a directory above a path that is copied is copied
      have habove : settled.excludes above = false := Included.above hexcluded hancestor
      rw [hcopy above, if_neg (by simp [habove]), Option.filter_eq_some_iff]
      exact and_iff_left rfl

variable {recipe : Recipe} {place : String} {report : Option Report}

/-- A home that has something under a directory has the directory. -/
theorem kept_of_tracked {row path : TreePath} {entry : Entry κ} (hancestor : row <+: path)
    (hbase : base.tree.get? path = some entry) (hhome : home.get? path = some entry) :
    home.get? row = base.tree.get? row := by
  by_cases hne : row = []
  · subst hne
    have hnone (tree : FileTree κ) : tree.get? [] = none :=
      Option.eq_none_iff_forall_ne_some.mpr fun entry hentry ↦ FileTree.ne_nil_of_get? hentry rfl
    rw [hnone, hnone]
  · by_cases hsame : row = path
    · rw [hsame, hhome, hbase]
    · rw [FileTree.directory_of_prefix hhome hancestor hne hsame,
        FileTree.directory_of_prefix hbase hancestor hne hsame]

/-- After the clone and the sweep, a home has every tracked path of its base, all of `.git` and each
default row the gate kept, exactly when no list reaches what it must have. -/
theorem fresh_iff (h : fresh faults base recipe place = .ok (home, kept, report)) :
    Fresh base kept home ↔ Spares base recipe := by
  obtain ⟨settled, henforce, hget⟩ := get?_fresh h
  obtain ⟨hsettled, _⟩ := enforce_eq_ok henforce
  have hrows (path : TreePath) : settled.excludes path = false ↔
      ∀ row ∈ (Excludes.withRecipe recipe.exclude).rows, row.path <+: path →
        base.opens = true ∧ Covers base row.path := by
    rw [← Bool.not_eq_true, Excludes.excludes_iff]
    constructor
    · exact fun hnone row hrow hancestor ↦ by_contra fun hnot ↦
        hnone ⟨row, (hsettled row).mpr ⟨hrow, hnot⟩, hancestor⟩
    · rintro hall ⟨row, hrow, hancestor⟩
      obtain ⟨hmem, hnot⟩ := (hsettled row).mp hrow
      exact hnot (hall row hmem hancestor)
  have hspared (path : TreePath) (entry : Entry κ) (hentry : base.tree.get? path = some entry)
      (hcopied : copied entry = true) : home.get? path = some entry ↔
        (∀ row ∈ (Excludes.withRecipe recipe.exclude).rows, row.path <+: path →
          base.opens = true ∧ Covers base row.path) ∧
        ∀ above, above <+: path →
          ¬Matched (.withRecipe recipe.invalidate) base.tree above := by
    rw [hget, and_iff_right ⟨hentry, hcopied⟩, hrows]
  constructor
  · intro hfresh path entry hentry hcopied hmust
    refine (hspared path entry hentry hcopied).mp ?_
    exact hmust.elim (fun hpath ↦ hfresh.tracked path hpath entry hentry hcopied)
      fun hgit ↦ hfresh.git path hgit entry hentry hcopied
  · intro hspares
    have htracked : ∀ path ∈ base.tracked, ∀ entry, base.tree.get? path = some entry →
        copied entry = true → home.get? path = some entry := fun path hpath entry hentry hcopied ↦
      (hspared path entry hentry hcopied).mpr (hspares path entry hentry hcopied (Or.inl hpath))
    refine ⟨htracked, fun path hgit entry hentry hcopied ↦ ?_, ?_⟩
    · exact (hspared path entry hentry hcopied).mpr
        (hspares path entry hentry hcopied (Or.inr hgit))
    · intro row hrow path hpath hancestor entry hentry hcopied
      exact kept_of_tracked hancestor hentry (htracked path hpath entry hentry hcopied)

/-! ### A cache the project committed -/

/-- A clean base of two files, one of them in a directory Python writes, beside its `.git`. -/
private def compiled (head : List TreePath) : Base ℕ where
  tree := ⟨[([".git"], .directory), ([".git", "HEAD"], .file 0), (["__pycache__"], .directory),
    (["__pycache__", "main.pyc"], .file 1), (["main.py"], .file 2)], by decide, by decide⟩
  path := "/bases/00000001"
  opens := true
  head := some head
  revParseFails := none
  lsTreeFails := none

private def plain : Recipe := ⟨[], []⟩

/-- A run of the two steps whose answer passes a check. -/
private theorem fresh_of_any {base : Base ℕ} {recipe : Recipe} {place : String}
    {check : FileTree ℕ × List Kept × Option Report → Bool}
    (h : (fresh .none base recipe place).toOption.any check = true) : ∃ home kept report,
      fresh .none base recipe place = .ok (home, kept, report) ∧ check (home, kept, report) = true := by
  cases hrun : fresh .none base recipe place with
  | error failure => simp [hrun, Except.toOption] at h
  | ok answer =>
    obtain ⟨home, kept, report⟩ := answer
    exact ⟨home, kept, report, rfl, by simpa [hrun, Except.toOption] using h⟩

theorem fresh_iff_compiled : ∃ home kept report,
    fresh .none (compiled [["main.py"]]) plain "/homes/00000001" = .ok (home, kept, report) ∧
      Fresh (compiled [["main.py"]]) kept home := by
  have hruns : (fresh .none (compiled [["main.py"]]) plain "/homes/00000001").toOption.any
      (fun _ ↦ true) = true := by decide +kernel
  have hrows : ∀ row ∈ (compiled [["main.py"]]).tree.rows,
      row.1 ∈ (compiled [["main.py"]]).tracked ∨ [".git"] <+: row.1 →
      (∀ listed ∈ (Excludes.withRecipe plain.exclude).rows, listed.path <+: row.1 →
        (compiled [["main.py"]]).opens = true ∧
          ∃ tracked ∈ (compiled [["main.py"]]).tracked, listed.path <+: tracked) ∧
      ∀ above ∈ row.1.inits, ¬((compiled [["main.py"]]).tree.get? above = some .directory ∧
        ((InvalidateCache.withRecipe plain.invalidate).matched above).isSome = true) := by
    decide +kernel
  obtain ⟨home, kept, report, hrun, _⟩ := fresh_of_any hruns
  refine ⟨home, kept, report, hrun, (fresh_iff hrun).mpr fun path entry hentry _ hmust ↦ ?_⟩
  obtain ⟨hlisted, hnames⟩ := hrows _ (FileTree.mem_rows_iff.mpr hentry) hmust
  exact ⟨hlisted, fun above hancestor ↦ hnames above ((List.mem_inits _ _).mpr hancestor)⟩

/-- The commit tracks a file in a directory Python writes: the gate keeps the row and says so, and the
sweep then removes the directory. -/
theorem committed_cache_removed : ∃ home kept report,
    fresh .none (compiled [["main.py"], ["__pycache__", "main.pyc"]]) plain "/homes/00000001" =
        .ok (home, kept, report) ∧
      kept.map Kept.note = ["__pycache__ is excluded by default (compiled modules that record " ++
        "their own path), but the commit tracks it, so the copy keeps it"] ∧
      home.get? ["__pycache__", "main.pyc"] = none ∧ home.get? ["__pycache__"] = none ∧
      ¬Fresh (compiled [["main.py"], ["__pycache__", "main.pyc"]]) kept home := by
  have hruns : (fresh .none (compiled [["main.py"], ["__pycache__", "main.pyc"]]) plain
      "/homes/00000001").toOption.any (fun answer ↦ decide (answer.2.1.map Kept.note =
        ["__pycache__ is excluded by default (compiled modules that record " ++
          "their own path), but the commit tracks it, so the copy keeps it"]) &&
      (answer.1.get? ["__pycache__", "main.pyc"]).isNone &&
      (answer.1.get? ["__pycache__"]).isNone) = true := by decide +kernel
  obtain ⟨home, kept, report, hrun, hcheck⟩ := fresh_of_any hruns
  simp only [Bool.and_eq_true, decide_eq_true_eq, Option.isNone_iff_eq_none] at hcheck
  obtain ⟨⟨hkept, hfile⟩, hdirectory⟩ := hcheck
  refine ⟨home, kept, report, hrun, hkept, hfile, hdirectory, fun hfresh ↦ ?_⟩
  have hthere := hfresh.tracked ["__pycache__", "main.pyc"] (by decide) (.file 1) (by decide) rfl
  rw [hfile] at hthere
  cases hthere

end Nodal.Workspace
