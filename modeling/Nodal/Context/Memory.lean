import Nodal.Context.Render

/-!
# The memory keeps its shape and tells its lengths

`context/render.rs`: the headings of a memory are the renderer's, and no block of a sibling takes more lines
than its cap. Each list says how long it is and what it left out, but some counts are taken from lists that
were cut to a page when they were read, and others from Git. The file has the lines the renderer wrote, and
each list tells how many there really are, exactly when no text that is written as it came holds a newline
and the pages are as long as Git counts (`keeps_iff`).
-/

set_option autoImplicit false

namespace Nodal.Context.Memory

open Foundation Foundation.Text

variable {label noun mark : Text} {lines : List Text}

/-! ### Lengths that are told -/

/-- A block tells its length: it states a number, and the lines it shows and the number it says it left out
come to that number. -/
def Tells (statement : ℕ → Text) (gap shown : List Text) (more : ℕ → Text) (close : List Text)
    (real : ℕ) (block : List Text) : Prop :=
  ∃ left tail, shown.length + left = real ∧ (left = 0 ∧ tail = [] ∨ tail = [more left]) ∧
    block = statement real :: (gap ++ shown ++ tail ++ close)

theorem count_eq {number : ℕ} (h : number ≠ 0) (noun : Text) :
    ∃ rest, count number noun = decimal number ++ ' ' :: rest := by
  unfold count
  split
  · exact absurd rfl h
  · exact ⟨noun, rfl⟩
  · exact ⟨noun ++ ['s'], by simp⟩

theorem count_ne_none {number : ℕ} (h : number ≠ 0) : count number noun ≠ count 0 noun := by
  intro heq
  obtain ⟨rest, hcount⟩ := count_eq h noun
  obtain ⟨digit, digits, hdigits⟩ := List.exists_cons_of_ne_nil (decimal_ne_nil number)
  rw [hcount, hdigits] at heq
  obtain rfl : digit = 'n' := (List.cons.inj heq).1
  exact absurd (isDigit_of_mem_decimal (hdigits ▸ List.mem_cons_self)) (by decide)

theorem count_inj {m n : ℕ} (h : count m noun = count n noun) : m = n := by
  by_cases hm : m = 0
  · by_contra hn
    rw [hm] at h hn
    exact count_ne_none (Ne.symm hn) h.symm
  · by_cases hn : n = 0
    · rw [hn] at h
      exact absurd h (count_ne_none hm)
    · obtain ⟨rest, hcount⟩ := count_eq hm noun
      obtain ⟨rest', hcount'⟩ := count_eq hn noun
      rw [hcount, hcount'] at h
      have hspace (number : ℕ) : ' ' ∉ decimal number := fun hmem ↦
        absurd (isDigit_of_mem_decimal hmem) (by decide)
      exact decimal_inj (append_cons_inj (hspace m) (hspace n) h).1

theorem notShown_inj {m n : ℕ} (h : notShown noun mark m = notShown noun mark n) : m = n :=
  count_inj (List.append_cancel_left (List.append_cancel_right h))

/-- A list that states a number tells a length exactly when both are how many it holds. -/
theorem tells_bullets_iff {statement : ℕ → Text} {said real cap : ℕ} {gap close : List Text}
    (hstatement : ∀ m n, statement m = statement n → m = n) :
    Tells statement gap ((lines.take cap).map (mark ++ ·)) (notShown noun mark) close real
      (statement said :: (gap ++ bullets lines cap noun mark ++ close)) ↔
      said = real ∧ lines.length = real := by
  constructor
  · rintro ⟨left, tail, hreal, htail, hblock⟩
    obtain ⟨hsaid, hrest⟩ := List.cons.inj hblock
    rw [bullets, ← List.append_assoc] at hrest
    have hmore := List.append_cancel_left (List.append_cancel_right hrest)
    refine ⟨hstatement _ _ hsaid, ?_⟩
    rw [List.length_map, List.length_take] at hreal
    rcases htail with ⟨rfl, rfl⟩ | rfl
    · have hcap : ¬cap < lines.length := fun hcap ↦ by
        rw [if_pos hcap] at hmore
        cases hmore
      omega
    · by_cases hcap : cap < lines.length
      · rw [if_pos hcap] at hmore
        have hleft := notShown_inj (List.cons.inj hmore).1
        omega
      · rw [if_neg hcap] at hmore
        cases hmore
  · rintro ⟨rfl, hlength⟩
    by_cases hcap : cap < lines.length
    · refine ⟨lines.length - cap, [notShown noun mark (lines.length - cap)], ?_, .inr rfl, ?_⟩
      · rw [List.length_map, List.length_take]
        omega
      · simp only [bullets, if_pos hcap, List.append_assoc]
    · refine ⟨0, [], ?_, .inl ⟨rfl, rfl⟩, ?_⟩
      · rw [List.length_map, List.length_take]
        omega
      · simp only [bullets, if_neg hcap, List.append_assoc]

/-- What a labelled list of the facts tells, of so many that there really are. -/
def ListTells (label noun : Text) (lines : List Text) (real : ℕ) : Prop :=
  Tells (field label <| count · noun) [] ((lines.take LIST).map ("  - ".toList ++ ·))
    (notShown noun "  - ".toList) [] real (list label noun lines)

theorem listTells_iff {real : ℕ} : ListTells label noun lines real ↔ lines.length = real := by
  have hstatement (m n : ℕ) (h : field label (count m noun) = field label (count n noun)) : m = n :=
    count_inj (List.append_cancel_left h)
  have hlist : list label noun lines =
      field label (count lines.length noun) :: ([] ++ bullets lines LIST noun "  - ".toList ++ []) := by
    rw [List.nil_append, List.append_nil, list]
  rw [ListTells, hlist, tells_bullets_iff hstatement, and_self_iff]

/-- What the memory tells of the commits the base gained, of so many that there really are. -/
def GainedTells (gained : Gained) (real : ℕ) : Prop :=
  Tells (gainedHeading gained.base) [[]] ((gained.commits.take (CAP - 3)).map ("- ".toList ++ ·))
    (notShown "commit".toList "- ".toList) [[]] real (gainedLines (some gained))

theorem gainedTells_iff {gained : Gained} {real : ℕ} :
    GainedTells gained real ↔ gained.total = real ∧ gained.commits.length = real := by
  have hstatement (m n : ℕ) (h : gainedHeading gained.base m = gainedHeading gained.base n) : m = n :=
    count_inj (List.append_cancel_left (List.append_cancel_right h))
  exact tells_bullets_iff hstatement

/-! ### The blocks of siblings -/

theorem share_le (room commits files : ℕ) :
    (share room commits files).1 ≤ commits ∧ (share room commits files).2 ≤ files ∧
      (share room commits files).1 + (share room commits files).2 ≤ room := by
  simp only [share]
  omega

/-- A part takes its lines and its label, and no label where there is nothing to show. -/
theorem length_sectionLines_le {take : ℕ} (h : take ≤ lines.length) :
    (sectionLines label lines take).length ≤ (if lines.length = 0 then 0 else 1) + take := by
  unfold sectionLines
  split_ifs with htake hlines hlines
  · exact Nat.zero_le _
  · exact Nat.zero_le _
  · omega
  · rw [List.length_cons, List.length_map, List.length_take]
    omega

/-- What the lists of a sibling get: all they hold, or no more than there is room for. -/
theorem allotted_cases (commits files : ℕ) :
    ((allotted commits files).2 = false ∧ (allotted commits files).1 = (commits, files) ∧
      fixed commits files + (commits + files) ≤ CAP) ∨
    ((allotted commits files).2 = true ∧ (allotted commits files).1.1 ≤ commits ∧
      (allotted commits files).1.2 ≤ files ∧
      (allotted commits files).1.1 + (allotted commits files).1.2 ≤
        CAP - (fixed commits files + 1)) := by
  unfold allotted
  split_ifs with h
  · exact .inl ⟨rfl, rfl, h⟩
  · exact .inr ⟨rfl, share_le _ _ _⟩

/-- A block takes no more lines than the cap. -/
theorem length_siblingLines_le (sibling : Entry) : (siblingLines sibling).length ≤ CAP := by
  have hcases := allotted_cases sibling.commits.length sibling.files.length
  have hlabel (lines : List Text) : (if lines.length = 0 then 0 else 1) ≤ 1 := by split_ifs <;> omega
  have hlabels := hlabel sibling.commits
  have hlabels' := hlabel sibling.files
  have hcap : CAP = 40 := rfl
  unfold siblingLines
  unfold fixed at hcases
  generalize allotted sibling.commits.length sibling.files.length = taken at hcases
  obtain ⟨⟨commits, files⟩, dropping⟩ := taken
  have hcommits := @length_sectionLines_le "commits:".toList sibling.commits commits
  have hfiles := @length_sectionLines_le "files:".toList sibling.files files
  simp only [List.length_append, List.length_cons, List.length_nil]
  generalize (if sibling.commits.length = 0 then 0 else 1) = labels at hcases hcommits hlabels
  generalize (if sibling.files.length = 0 then 0 else 1) = labels' at hcases hfiles hlabels'
  rcases hcases with ⟨rfl, htaken, hroom⟩ | ⟨rfl, hfewer, hfewer', hroom⟩
  · obtain ⟨rfl, rfl⟩ := Prod.mk.inj htaken
    have hc := hcommits le_rfl
    have hf := hfiles le_rfl
    simp only [Bool.false_eq_true, if_false, List.length_nil]
    omega
  · have hc := hcommits hfewer
    have hf := hfiles hfewer'
    dsimp only at hroom
    simp only [if_true, List.length_singleton]
    omega

/-- What the block of a sibling tells, of so many commits and files that there really are. -/
def SiblingTells (sibling : Entry) (base : Text) (ahead changed uncommitted : ℕ) : Prop :=
  let taken := (allotted sibling.commits.length sibling.files.length).1
  ∃ (left : ℕ × ℕ) (tail : List Text), (sibling.commits.take taken.1).length + left.1 = ahead ∧
    (sibling.files.take taken.2).length + left.2 = changed ∧
    (left = (0, 0) ∧ tail = [] ∨ tail = [dropped left.1 left.2]) ∧
    siblingLines sibling =
      ["### ".toList ++ sibling.heading, [],
        count ahead "commit".toList ++ " against ".toList ++ base ++ ", ".toList ++
          count changed "file".toList ++ " changed, ".toList ++
          count uncommitted "file".toList ++ " uncommitted".toList, []] ++
        sectionLines "commits:".toList sibling.commits taken.1 ++
        sectionLines "files:".toList sibling.files taken.2 ++ tail ++ [[]]

/-- Git counts no fewer commits than a block shows, and no more where nothing is left out. -/
def Counted (commits files ahead : ℕ) : Prop :=
  if (allotted commits files).2 then (allotted commits files).1.1 ≤ ahead else commits = ahead

theorem siblingTells_iff {sibling : Entry} {base : Text} (hbase : sibling.base = some base) :
    SiblingTells sibling base sibling.ahead sibling.files.length sibling.uncommitted ↔
      Counted sibling.commits.length sibling.files.length sibling.ahead := by
  have hcases := allotted_cases sibling.commits.length sibling.files.length
  have hsummary : summary sibling = count sibling.ahead "commit".toList ++ " against ".toList ++ base ++
      ", ".toList ++ count sibling.files.length "file".toList ++ " changed, ".toList ++
      count sibling.uncommitted "file".toList ++ " uncommitted".toList := by
    rw [summary, hbase]
  simp only [SiblingTells, Counted, siblingLines, ← hsummary]
  generalize allotted sibling.commits.length sibling.files.length = taken at hcases ⊢
  obtain ⟨⟨commits, files⟩, dropping⟩ := taken
  rcases hcases with ⟨rfl, htaken, -⟩ | ⟨rfl, hcommits, hfiles, -⟩
  · obtain ⟨rfl, rfl⟩ := Prod.mk.inj htaken
    simp only [List.take_length, Bool.false_eq_true, if_false]
    constructor
    · rintro ⟨left, tail, hahead, -, htail, hblock⟩
      have hnone := List.append_cancel_left (List.append_cancel_right hblock)
      rcases htail with ⟨hleft, -⟩ | hleft
      · rw [hleft] at hahead
        exact hahead
      · rw [hleft] at hnone
        cases hnone
    · exact fun hahead ↦ ⟨(0, 0), [], hahead, rfl, .inl ⟨rfl, rfl⟩, rfl⟩
  · dsimp only at hcommits hfiles ⊢
    rw [List.length_take_of_le hcommits, List.length_take_of_le hfiles, if_pos rfl, if_pos rfl]
    constructor
    · rintro ⟨left, tail, hahead, -⟩
      omega
    · intro hahead
      refine ⟨(sibling.ahead - commits, sibling.files.length - files), _, ?_, ?_, .inr rfl, rfl⟩
      · exact Nat.add_sub_of_le hahead
      · exact Nat.add_sub_of_le hfiles

/-! ### Headings -/

/-- A line that Markdown reads as a heading. -/
def isHeading (line : Text) : Bool := line.head? = some '#'

/-- The headings of a memory, in their order. -/
def headings (subject : Snapshot) (ledger : Ledger) : List Text :=
  ["# ".toList ++ subject.unit.slug.text, "## Facts".toList, "## Stated".toList,
    "## Project ledger".toList] ++
    (ledger.gained.toList.map fun gained ↦ gainedHeading gained.base gained.total) ++
    (ledger.siblings.map ("### ".toList ++ ·.heading)) ++
    if subject.notes.isEmpty then [] else ["## Not read".toList]

theorem isHeading_field (label value : Text) : isHeading (field label value) = false := rfl

theorem filter_map_isHeading {α : Type} {f : α → Text} (h : ∀ a, isHeading (f a) = false)
    (items : List α) : (items.map f).filter isHeading = [] :=
  List.filter_eq_nil_iff.mpr <| by simp [h]

theorem filter_bullets (hmark : ∀ line, isHeading (mark ++ line) = false) (cap : ℕ) :
    (bullets lines cap noun mark).filter isHeading = [] := by
  rw [bullets, List.filter_append, filter_map_isHeading hmark, List.nil_append]
  split_ifs
  · rw [notShown, List.append_assoc, List.append_assoc, List.filter_singleton, hmark]
    rfl
  · rfl

theorem filter_list (label noun : Text) (lines : List Text) :
    (list label noun lines).filter isHeading = [] := by
  rw [list, List.filter_cons_of_neg (by simp [isHeading_field]), filter_bullets fun _ ↦ rfl]

theorem filter_standing (subject : Snapshot) : (standing subject).filter isHeading = [] := by
  unfold standing
  cases subject.work with
  | none => rfl
  | some work =>
    have hplaced : (placed work).filter isHeading = [] := by
      unfold placed
      generalize (work.forkedAt.filter _) = forked
      cases forked <;> rfl
    simp only [List.filter_append, hplaced, uncommittedList, touchedList, commitList, filter_list,
      List.append_nil]

theorem filter_facts (subject : Snapshot) (testCommand : Option Text) :
    (facts subject testCommand).filter isHeading = ["## Facts".toList] := by
  have htests : (tests subject testCommand).toList.filter isHeading = [] := by
    unfold tests
    cases subject.tests with
    | cons event rest => rfl
    | nil =>
      cases testCommand with
      | none => rfl
      | some command =>
        cases hfind : subject.commands.find? (isCommand ·.body command) with
        | none => simp [hfind]
        | some event => simp [hfind, isHeading_field]
  have hstandIns : (standIns subject).toList.filter isHeading = [] := by
    unfold standIns
    split_ifs <;> rfl
  simp only [facts, List.filter_append, filter_standing, hstandIns, commands, filter_list, htests,
    List.append_nil]
  rfl

theorem filter_stated (subject : Snapshot) : (stated subject).filter isHeading = ["## Stated".toList] := by
  unfold stated
  split_ifs
  · rfl
  · rw [List.filter_append, List.filter_append, filter_map_isHeading fun _ ↦ rfl]
    rfl

theorem filter_unread (subject : Snapshot) : (unread subject).filter isHeading =
    if subject.notes.isEmpty then [] else ["## Not read".toList] := by
  unfold unread
  split_ifs
  · rfl
  · rw [List.filter_append, List.filter_append, filter_map_isHeading fun _ ↦ rfl]
    rfl

theorem filter_gainedLines (gained : Option Gained) : (gainedLines gained).filter isHeading =
    gained.toList.map fun gained ↦ gainedHeading gained.base gained.total := by
  cases gained with
  | none => rfl
  | some gained =>
    rw [gainedLines, List.filter_append, List.filter_append, filter_bullets fun _ ↦ rfl]
    rfl

/-- What begins with a count is no heading. -/
theorem isHeading_count (number : ℕ) (rest : Text) : isHeading (count number noun ++ rest) = false := by
  by_cases h : number = 0
  · rw [h]
    rfl
  · obtain ⟨after, hcount⟩ := count_eq h noun
    obtain ⟨digit, digits, hdigits⟩ := List.exists_cons_of_ne_nil (decimal_ne_nil number)
    have hdigit : digit.isDigit = true := isDigit_of_mem_decimal (hdigits ▸ List.mem_cons_self)
    rw [hcount, hdigits, isHeading, decide_eq_false_iff_not, List.cons_append, List.cons_append,
      List.head?_cons, Option.some_inj]
    rintro rfl
    exact absurd hdigit (by decide)

theorem filter_sectionLines (hlabel : isHeading label = false) (take : ℕ) :
    (sectionLines label lines take).filter isHeading = [] := by
  unfold sectionLines
  split_ifs
  · rfl
  · rw [List.filter_cons_of_neg (by simp [hlabel]), filter_map_isHeading fun _ ↦ rfl]

theorem filter_siblingLines (other : Snapshot) : (siblingLines (entry other)).filter isHeading =
    ["### ".toList ++ (entry other).heading] := by
  have hsummary : isHeading (summary (entry other)) = false := by
    unfold entry
    cases other.work with
    | none =>
      unfold noHome
      split_ifs <;> rfl
    | some work => simp only [summary, List.append_assoc, isHeading_count]
  have hdropped (dropping : Bool) (commits files : ℕ) :
      (if dropping then [dropped commits files] else []).filter isHeading = [] := by
    split_ifs <;> rfl
  have hlines : ["### ".toList ++ (entry other).heading, [], summary (entry other), []].filter isHeading =
      ["### ".toList ++ (entry other).heading] := by
    rw [List.filter_cons_of_pos rfl, List.filter_cons_of_neg (by decide),
      List.filter_cons_of_neg (by simp [hsummary])]
    rfl
  simp only [siblingLines, List.filter_append, hlines, hdropped, List.append_nil,
    @filter_sectionLines "commits:".toList (entry other).commits rfl,
    @filter_sectionLines "files:".toList (entry other).files rfl]
  rfl

/-- The headings among the lines are those of the memory. -/
theorem filter_written (subject : Snapshot) (project : List Snapshot) (testCommand : Option Text) :
    (written subject (ledger subject project) testCommand).filter isHeading =
      headings subject (ledger subject project) := by
  have hheading : (heading subject).filter isHeading = ["# ".toList ++ subject.unit.slug.text] := by
    rw [heading, List.filter_cons_of_pos rfl, List.filter_cons_of_neg (by decide),
      List.filter_cons_of_neg (by decide +kernel)]
    rfl
  have htitle : ["## Project ledger".toList, []].filter isHeading = ["## Project ledger".toList] := rfl
  have hempty : (if (ledger subject project).siblings.isEmpty then
      ["No other unit of this project has work off the base.".toList, []] else []).filter isHeading =
      [] := by
    split_ifs <;> rfl
  have hsiblings : ((ledger subject project).siblings.flatMap siblingLines).filter isHeading =
      (ledger subject project).siblings.map ("### ".toList ++ ·.heading) := by
    simp only [ledger]
    induction others subject project with
    | nil => rfl
    | cons other rest ih =>
      rw [List.map_cons, List.flatMap_cons, List.filter_append, filter_siblingLines, ih]
      rfl
  simp only [written, projectLedger, List.filter_append, hheading, filter_facts, filter_stated, htitle,
    filter_gainedLines, hempty, hsiblings, filter_unread, headings]
  simp only [List.append_nil, List.append_assoc, List.cons_append, List.nil_append]

/-! ### The memory of a survey -/

variable {subject : Source} {project : List Source} {testCommand : Option Text}

/-- What a unit's ledger is compiled from. -/
def surveyed (subject : Source) (project : List Source) : Ledger :=
  ledger (snapshot subject) (project.map snapshot)

/-- The units of a project whose work a unit's memory names. -/
def beside (subject : Source) (project : List Source) : List Source :=
  project.filter fun other ↦ other.unit.id ≠ subject.unit.id && (snapshot other).isInFlight

/-- What a reading finds in a range: nothing where the branch and the base agree on no commit. -/
def Reading.range {α : Type} (reading : Reading) (between : Ranges → List α) : List α :=
  (reading.ranges.map between).getD []

/-- The memory keeps its shape and tells its lengths: its lines are those the renderer wrote, its headings
are the renderer's, each list tells how many there really are, and no block of a sibling is over the cap. -/
structure Keeps (subject : Source) (project : List Source) (testCommand : Option Text) : Prop where
  lines : split '\n' (memory (snapshot subject) (surveyed subject project) testCommand) =
    written (snapshot subject) (surveyed subject project) testCommand ++ [[]]
  headings :
    (split '\n' (memory (snapshot subject) (surveyed subject project) testCommand)).filter isHeading =
      headings (snapshot subject) (surveyed subject project)
  blocks : ∀ reading ∈ subject.reading,
    uncommittedList (work subject.unit reading) ++ touchedList (work subject.unit reading) ++
      commitList (work subject.unit reading) <:+:
        written (snapshot subject) (surveyed subject project) testCommand
  uncommitted : ∀ reading ∈ subject.reading, ListTells "uncommitted".toList "file".toList
    (files (work subject.unit reading).uncommitted) reading.uncommitted.length
  touched : ∀ reading ∈ subject.reading, ListTells "changed since the base commit".toList "file".toList
    (files (work subject.unit reading).touched) (reading.range Ranges.touched).length
  commits : ∀ reading ∈ subject.reading, ListTells "commits on this branch".toList "commit".toList
    ((work subject.unit reading).commits.map commitLine) reading.divergence.ahead
  gained : ∀ gained ∈ (surveyed subject project).gained, ∀ reading ∈ subject.reading,
    GainedTells gained reading.divergence.behind
  ledger : projectLedger (surveyed subject project) <:+:
    written (snapshot subject) (surveyed subject project) testCommand
  siblings : ∀ other ∈ beside subject project, (siblingLines (entry (snapshot other))).length ≤ CAP ∧
    ∀ reading ∈ other.reading, SiblingTells (entry (snapshot other)) (readable reading.reference)
      reading.divergence.ahead (reading.range Ranges.touched).length reading.uncommitted.length

/-- What is written as it came holds no newline, and the pages are as long as Git counts. -/
structure Fits (subject : Source) (project : List Source) : Prop where
  plain : Plain (snapshot subject) (project.map snapshot)
  commits : ∀ reading ∈ subject.reading,
    min COMMITS (reading.range Ranges.commits).length = reading.divergence.ahead
  gained : ∀ reading ∈ subject.reading,
    min COMMITS (reading.range Ranges.gained).length = reading.divergence.behind
  siblings : ∀ other ∈ beside subject project, ∀ reading ∈ other.reading,
    Counted (min COMMITS (reading.range Ranges.commits).length) (reading.range Ranges.touched).length
      reading.divergence.ahead

theorem work_touched (unit : UnitRow) (reading : Reading) :
    (work unit reading).touched = reading.range Ranges.touched := by
  unfold work Reading.range
  cases reading.ranges <;> rfl

theorem work_commits (unit : UnitRow) (reading : Reading) :
    (work unit reading).commits = (reading.range Ranges.commits).take COMMITS := by
  unfold work Reading.range
  cases reading.ranges <;> rfl

theorem work_gained (unit : UnitRow) (reading : Reading) :
    (work unit reading).gained = (reading.range Ranges.gained).take COMMITS := by
  unfold work Reading.range
  cases reading.ranges <;> rfl

theorem snapshot_work {source : Source} {reading : Reading} (h : reading ∈ source.reading) :
    (snapshot source).work = some (work source.unit reading) := by
  rw [snapshot, h]
  rfl

theorem surveyed_gained {reading : Reading} (h : reading ∈ subject.reading) :
    (surveyed subject project).gained = some ⟨readable reading.reference, reading.divergence.behind,
      ((reading.range Ranges.gained).take COMMITS).map commitLine⟩ := by
  rw [← work_gained subject.unit, surveyed, ledger, gained, snapshot_work h]
  rfl

theorem lines_iff : split '\n' (memory (snapshot subject) (surveyed subject project) testCommand) =
    written (snapshot subject) (surveyed subject project) testCommand ++ [[]] ↔
    Plain (snapshot subject) (project.map snapshot) := by
  have hne : written (snapshot subject) (surveyed subject project) testCommand ≠ [] := List.cons_ne_nil _ _
  have hcommands : (snapshot subject).commands.length ≤ LIST :=
    (List.length_take_le _ _).trans (by decide)
  rw [memory, intercalate_newline hne, split_unlines_iff]
  exact single_written_iff _ _ testCommand hcommands

theorem blocks_infix {reading : Reading} (hreading : reading ∈ subject.reading) :
    uncommittedList (work subject.unit reading) ++ touchedList (work subject.unit reading) ++
      commitList (work subject.unit reading) <:+:
        written (snapshot subject) (surveyed subject project) testCommand := by
  have hstanding : uncommittedList (work subject.unit reading) ++
      touchedList (work subject.unit reading) ++ commitList (work subject.unit reading) <:+:
      standing (snapshot subject) := by
    unfold standing
    rw [snapshot_work hreading]
    exact ⟨placed (work subject.unit reading), [], by simp⟩
  have hfacts : standing (snapshot subject) <:+: facts (snapshot subject) testCommand := by
    iterate 4 apply List.infix_append_of_infix_left
    exact List.infix_append_right
  have hwritten : facts (snapshot subject) testCommand <:+:
      written (snapshot subject) (surveyed subject project) testCommand := by
    iterate 3 apply List.infix_append_of_infix_left
    exact List.infix_append_right
  exact (hstanding.trans hfacts).trans hwritten

theorem siblingTells_reading_iff (other : Source) {reading : Reading} (hreading : reading ∈ other.reading) :
    SiblingTells (entry (snapshot other)) (readable reading.reference) reading.divergence.ahead
      (reading.range Ranges.touched).length reading.uncommitted.length ↔
    Counted (min COMMITS (reading.range Ranges.commits).length) (reading.range Ranges.touched).length
      reading.divergence.ahead := by
  let sibling : Entry := ⟨(entry (snapshot other)).heading, some (readable reading.reference),
    reading.divergence.ahead, reading.uncommitted.length,
    ((reading.range Ranges.commits).take COMMITS).map commitLine,
    (reading.range Ranges.touched).map fileLine, none⟩
  have hentry : entry (snapshot other) = sibling := by
    simp only [sibling, ← work_commits other.unit, ← work_touched other.unit]
    simp only [entry, snapshot_work hreading]
    rfl
  have htells := @siblingTells_iff sibling (readable reading.reference) rfl
  rw [hentry]
  simpa only [sibling, List.length_map, List.length_take] using htells

theorem gainedTells_reading_iff {gained : Gained} (hgained : gained ∈ (surveyed subject project).gained)
    {reading : Reading} (hreading : reading ∈ subject.reading) :
    GainedTells gained reading.divergence.behind ↔
      min COMMITS (reading.range Ranges.gained).length = reading.divergence.behind := by
  rw [surveyed_gained hreading] at hgained
  obtain rfl := Option.some.inj hgained
  rw [gainedTells_iff, and_iff_right rfl, List.length_map, List.length_take]

theorem fits_of_keeps (h : Keeps subject project testCommand) : Fits subject project where
  plain := lines_iff.mp h.lines
  commits reading hreading := by
    have htells := listTells_iff.mp (h.commits reading hreading)
    rwa [List.length_map, work_commits, List.length_take] at htells
  gained reading hreading := by
    have hgained := @surveyed_gained subject project reading hreading
    exact (gainedTells_reading_iff hgained hreading).mp (h.gained _ hgained reading hreading)
  siblings other hother reading hreading :=
    (siblingTells_reading_iff other hreading).mp ((h.siblings other hother).2 reading hreading)

/-- A memory keeps its shape and tells its lengths exactly when what is written as it came holds no newline
and the pages of commits are as long as Git counts. -/
theorem keeps_iff (subject : Source) (project : List Source) (testCommand : Option Text) :
    Keeps subject project testCommand ↔ Fits subject project := by
  refine ⟨fits_of_keeps, fun h ↦ ?_⟩
  have hlines := (@lines_iff subject project testCommand).mpr h.plain
  exact {
    lines := hlines
    headings := by
      rw [hlines, List.filter_append, surveyed, filter_written]
      exact List.append_nil _
    blocks := fun reading hreading ↦ blocks_infix hreading
    uncommitted := fun reading hreading ↦ listTells_iff.mpr (List.length_map _)
    touched := fun reading hreading ↦ listTells_iff.mpr (by rw [files, List.length_map, work_touched])
    commits := fun reading hreading ↦ listTells_iff.mpr (by
      rw [List.length_map, work_commits, List.length_take]
      exact h.commits reading hreading)
    gained := fun gained hgained reading hreading ↦
      (gainedTells_reading_iff hgained hreading).mpr (h.gained reading hreading)
    ledger := ⟨heading (snapshot subject) ++ facts (snapshot subject) testCommand ++
      stated (snapshot subject), unread (snapshot subject), rfl⟩
    siblings := fun other hother ↦ ⟨length_siblingLines_le _, fun reading hreading ↦
      (siblingTells_reading_iff other hreading).mpr (h.siblings other hother reading hreading)⟩ }

/-! ### Memories that do not -/

private def forked : Oid := ⟨List.replicate 40 'a', by decide +kernel⟩

/-- A unit off the base by so many commits. -/
private def offBase (ahead : ℕ) (ranges : Ranges) : Source where
  unit := {
    id := ⟨List.replicate 26 '0', by decide +kernel⟩
    slug := ⟨['a'], by decide +kernel⟩
    objective := none
    objectiveEpistemic := none
    branch := ⟨['a'], by decide +kernel⟩
    baseCommit := some forked
    status := .opened }
  home := some "/home/a".toList
  reading := some ⟨"refs/heads/main".toList, ⟨ahead, 0⟩, .opened, [], some ranges⟩
  commands := []
  tests := []
  notes := []
  troubles := []
  standIns := []

/-- A file whose path holds a heading. -/
private def forged : Source :=
  offBase 1 ⟨forked, [⟨.added, "a\n## Stated".toList, none⟩], [⟨forked, "add".toList⟩], []⟩

/-- A branch with one commit more than a page. -/
private def long : Source := offBase 65 ⟨forked, [], List.replicate 65 ⟨forked, "work".toList⟩, []⟩

/-- A path with a newline writes a line of its own, and a long branch is told as a page long. -/
theorem forged_or_long : ¬Keeps forged [] none ∧ ¬Keeps long [] none := by
  refine ⟨fun h ↦ ?_, fun h ↦ ?_⟩
  · have hpath := ((fits_of_keeps h).plain.work _ rfl).touched _ List.mem_cons_self
    exact hpath.path (by decide)
  · have hcount := (fits_of_keeps h).commits _ rfl
    exact absurd hcount (by decide)

end Nodal.Context.Memory
