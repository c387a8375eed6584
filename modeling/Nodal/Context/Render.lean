import Nodal.Context.Ledger
import Nodal.Foundation.Lines

/-!
# The memory a unit is given

`context/render.rs`: what a survey says of a unit is written as lines, and the lines are joined into one
file. The bodies of events and the notes are flattened, and what has a shape is a single line by its shape.
The rest is written as it came: the home, the base, the subjects of commits, the paths of files, and the
references of events.

The lines the renderer writes are single ones exactly when no text that is written as it came holds a newline
(`single_written_iff`).
-/

set_option autoImplicit false

namespace Nodal.Context.Memory

open Foundation Foundation.Text
open Git (Divergence Integration)
open Model (Scalar isControl)

/-! ### The renderer -/

/-- How many lines any one list in the facts section may take. -/
def LIST : ℕ := 20

def FAILING : Text := "failing".toList

def PASSING : Text := "passing".toList

def EXIT_CODE : Text := "exit_code".toList

/-- One line of text, whatever the text held. -/
def oneLine (text : Text) : Text := trim (text.map fun c ↦ if isControl c then ' ' else c)

/-- One fact. -/
def field (label value : Text) : Text := "- ".toList ++ label ++ ": ".toList ++ value

/-- A count, said the way English says it. -/
def count (number : ℕ) (noun : Text) : Text :=
  match number with
  | 0 => "no ".toList ++ noun ++ ['s']
  | 1 => "1 ".toList ++ noun
  | many => decimal many ++ ' ' :: noun ++ ['s']

/-- The line that says how many lines were left out. -/
def notShown (noun mark : Text) (left : ℕ) : Text :=
  mark ++ "… ".toList ++ count left noun ++ " more not shown".toList

/-- At most `cap` bullets, and a line saying how many more there were. -/
def bullets (lines : List Text) (cap : ℕ) (noun mark : Text) : List Text :=
  (lines.take cap).map (mark ++ ·) ++
    if cap < lines.length then [notShown noun mark (lines.length - cap)] else []

/-- A labelled list in the facts section. -/
def list (label noun : Text) (lines : List Text) : List Text :=
  field label (count lines.length noun) :: bullets lines LIST noun "  - ".toList

/-- The files of a change list, as lines. -/
def files (changes : List FileChange) : List Text := changes.map fileLine

/-- The short form of an object identifier. -/
def short (oid : Text) : Text := oid.take 7

/-- The title, and the warning that an edit does not survive. -/
def heading (subject : Snapshot) : List Text :=
  ["# ".toList ++ subject.unit.slug.text, [],
    "<!-- Written by nodal from the project itself. Every nodal command that touches this unit ".toList ++
      "writes this file again, so an edit here is lost. -->".toList, []]

/-- What the unit was made for, and how that is known. -/
def objective (subject : Snapshot) : Text :=
  match subject.unit.objective with
  | none => "none stated".toList
  | some objective => match subject.unit.objectiveEpistemic with
    | some .observed => objective.text ++ " (recovered)".toList
    | some .stated | none => objective.text

/-- Where the unit's home is. -/
def home (subject : Snapshot) : Text := subject.home.getD "none on this machine".toList

/-- Which names hold a value Nodal made rather than a service. -/
def standIns (subject : Snapshot) : Option Text :=
  if subject.standIns.isEmpty then none
  else some (field "stand-in env".toList
    (List.intercalate ", ".toList (subject.standIns.map Scalar.text) ++
      " — nodal made these values so a generate step can run; no service answers on them".toList))

def statusLabel : UnitStatus → Text
  | .opened => "open".toList
  | .review => "review".toList
  | .merged => "merged".toList
  | .archived => "archived".toList

/-- The words a verdict carries in output. -/
def integrationLabel : Integration → Text
  | .unknown => "unknown".toList
  | .integrated .ancestor => "done (ancestor)".toList
  | .integrated .absorbed => "done (absorbed)".toList
  | .opened => "open".toList
  | .conflict => "conflict".toList

/-- The commit a branch is measured from, as a line names it. -/
def measured (work : Work) : Text := (work.baseCommit.map (short ·.text)).getD "unknown".toList

/-- Where the branch and the base are. The commit the unit forked from is said where it is another one. -/
def placed (work : Work) : List Text :=
  let forked := work.forkedAt.filter fun forked ↦
    some forked.text ≠ work.baseCommit.map Scalar.text
  field "base".toList (work.base ++ " at ".toList ++ measured work) ::
    (forked.toList.map fun forked ↦ field "forked at".toList
      (short forked.text ++ " — the branch has since been moved onto ".toList ++ measured work)) ++
    [field "staleness".toList (count work.divergence.behind "commit".toList ++ " behind ".toList ++
        work.base ++ ", ".toList ++ count work.divergence.ahead "commit".toList ++ " ahead".toList),
      field "merging".toList (integrationLabel work.integration)]

/-- What the tree holds that no commit does. -/
def uncommittedList (work : Work) : List Text :=
  list "uncommitted".toList "file".toList (files work.uncommitted)

def touchedList (work : Work) : List Text :=
  list "changed since the base commit".toList "file".toList (files work.touched)

def commitList (work : Work) : List Text :=
  list "commits on this branch".toList "commit".toList (work.commits.map commitLine)

/-- Where the branch stands, and what the tree holds. -/
def standing (subject : Snapshot) : List Text :=
  match subject.work with
  | none => [field "base".toList "not read; see the last section".toList]
  | some work => placed work ++ uncommittedList work ++ touchedList work ++ commitList work

/-- What a command event says became of the command. -/
def outcome (event : Event) : Text :=
  match reference event EXIT_CODE with
  | none => "no exit code recorded".toList
  | some code => "exit ".toList ++ code

/-- The last commands run in the unit, newest first. -/
def commands (subject : Snapshot) : List Text :=
  list "last commands".toList "command".toList (subject.commands.map fun event ↦
    event.ts.text ++ ' ' :: oneLine event.body ++ " — ".toList ++ outcome event)

/-- Whether a body is a run of a command, rather than of one that starts with the same word. -/
def isCommand (body command : Text) : Bool :=
  body = command || (command ++ [' ']).isPrefixOf body

/-- What a test result was counted as. -/
def results (event : Event) : List Text :=
  [(FAILING, "failing".toList), (PASSING, "passing".toList)].filterMap fun (name, word) ↦
    (reference event name).map fun count ↦ count ++ ' ' :: word

/-- What the log says about the tests, when it says anything. -/
def tests (subject : Snapshot) (testCommand : Option Text) : Option Text :=
  match subject.tests with
  | event :: _ =>
    let counts := results event
    let body := if counts.isEmpty then oneLine event.body else List.intercalate ", ".toList counts
    some (field "tests".toList (body ++ " (".toList ++ event.ts.text ++ [')']))
  | [] => do
    let command ← testCommand
    let event ← subject.commands.find? (isCommand ·.body command)
    some (field "tests".toList
      (oneLine event.body ++ " — ".toList ++ outcome event ++ " (".toList ++ event.ts.text ++ [')']))

/-- What is true of the unit now. -/
def facts (subject : Snapshot) (testCommand : Option Text) : List Text :=
  ["## Facts".toList, [],
    field "objective".toList (objective subject),
    field "state".toList (statusLabel subject.unit.status),
    field "branch".toList subject.unit.branch.text,
    field "home".toList (home subject)] ++
    standing subject ++ (standIns subject).toList ++ commands subject ++
    (tests subject testCommand).toList ++ [[]]

/-- The one word an event's kind is shown as. -/
def kindLabel : EventKind → Text
  | .attached => "attached".toList
  | .detached => "detached".toList
  | .command => "command".toList
  | .commit => "commit".toList
  | .testResult => "test".toList
  | .failure => "failure".toList
  | .fileTouched => "touched".toList
  | .finding => "finding".toList
  | .decision => "decision".toList
  | .question => "question".toList
  | .handoff => "handoff".toList
  | .sync => "sync".toList
  | .note => "note".toList
  | .verdict => "verdict".toList

/-- What somebody said, as opposed to what Nodal watched. -/
def stated (subject : Snapshot) : List Text :=
  ["## Stated".toList, []] ++
    (if subject.stated.isEmpty then ["Nobody has stated a note or a handoff in this unit.".toList]
    else subject.stated.map fun event ↦
      "- ".toList ++ event.ts.text ++ ' ' :: kindLabel event.kind ++ " (".toList ++
        event.actor.text ++ "): ".toList ++ oneLine event.body) ++ [[]]

/-- The heading over what the base gained. -/
def gainedHeading (base : Text) (total : ℕ) : Text :=
  "### ".toList ++ base ++ " gained ".toList ++ count total "commit".toList ++
    " since this unit's base commit".toList

/-- What merged into the base since this unit left it. -/
def gainedLines : Option Gained → List Text
  | none => ["What the base gained is not read; see the last section.".toList, []]
  | some gained =>
    [gainedHeading gained.base gained.total, []] ++
      bullets gained.commits (CAP - 3) "commit".toList "- ".toList ++ [[]]

/-- What one sibling has done, in one line. -/
def summary (sibling : Entry) : Text :=
  match sibling.base with
  | none => sibling.trouble.getD "nothing could be read about it".toList
  | some base =>
    count sibling.ahead "commit".toList ++ " against ".toList ++ base ++ ", ".toList ++
      count sibling.files.length "file".toList ++ " changed, ".toList ++
      count sibling.uncommitted "file".toList ++ " uncommitted".toList

/-- Divide the room between two lists: half each, and what half the shorter list does not need goes to
the longer one. -/
def share (room commits files : ℕ) : ℕ × ℕ :=
  let half := room / 2
  let taken := min commits (max half (room - files))
  (taken, min files (room - taken))

/-- What the cap left out. -/
def dropped (commits files : ℕ) : Text :=
  "… the ".toList ++ decimal CAP ++ "-line cap dropped ".toList ++ count commits "commit".toList ++
    " and ".toList ++ count files "file".toList

/-- One labelled part of a sibling's entry, with the first `take` of its lines. -/
def sectionLines (label : Text) (lines : List Text) (take : ℕ) : List Text :=
  if take = 0 then [] else label :: (lines.take take).map ("- ".toList ++ ·)

/-- How many lines of a sibling's block its lists do not take. -/
def fixed (commits files : ℕ) : ℕ :=
  4 + ((if commits = 0 then 0 else 1) + if files = 0 then 0 else 1) + 1

/-- How many lines each list of a sibling gets, and whether the cap drops any. -/
def allotted (commits files : ℕ) : (ℕ × ℕ) × Bool :=
  if fixed commits files + (commits + files) ≤ CAP then ((commits, files), false)
  else (share (CAP - (fixed commits files + 1)) commits files, true)

/-- One sibling, inside the cap, saying what the cap dropped. -/
def siblingLines (sibling : Entry) : List Text :=
  let ((commits, files), dropping) := allotted sibling.commits.length sibling.files.length
  ["### ".toList ++ sibling.heading, [], summary sibling, []] ++
    sectionLines "commits:".toList sibling.commits commits ++
    sectionLines "files:".toList sibling.files files ++
    (if dropping then [dropped (sibling.ahead - commits) (sibling.files.length - files)] else []) ++
    [[]]

/-- Every other open unit, and what the base gained under this one. -/
def projectLedger (ledger : Ledger) : List Text :=
  ["## Project ledger".toList, []] ++ gainedLines ledger.gained ++
    (if ledger.siblings.isEmpty then
      ["No other unit of this project has work off the base.".toList, []] else []) ++
    ledger.siblings.flatMap siblingLines

/-- What could not be read, so that a missing fact is never read as an absent one. -/
def unread (subject : Snapshot) : List Text :=
  if subject.notes.isEmpty then []
  else ["## Not read".toList, []] ++ (subject.notes.map fun note ↦ "- ".toList ++ oneLine note) ++ [[]]

/-- The lines of the file. -/
def written (subject : Snapshot) (ledger : Ledger) (testCommand : Option Text) : List Text :=
  heading subject ++ facts subject testCommand ++ stated subject ++ projectLedger ledger ++
    unread subject

/-- The whole file. -/
def memory (subject : Snapshot) (ledger : Ledger) (testCommand : Option Text) : Text :=
  List.intercalate ['\n'] (written subject ledger testCommand) ++ ['\n']

/-! ### Lines that are single -/

variable {label noun mark text : Text} {lines more : List Text}

/-- No line holds another. -/
def Single (lines : List Text) : Prop := ∀ line ∈ lines, '\n' ∉ line

@[simp] theorem single_nil : Single [] := List.forall_mem_nil _

@[simp] theorem single_cons : Single (text :: lines) ↔ '\n' ∉ text ∧ Single lines := List.forall_mem_cons

@[simp] theorem single_append : Single (lines ++ more) ↔ Single lines ∧ Single more :=
  List.forall_mem_append

theorem single_map {α : Type} {f : α → Text} {p : α → Prop} (h : ∀ a, '\n' ∉ f a ↔ p a)
    (items : List α) : Single (items.map f) ↔ ∀ a ∈ items, p a := by
  simp only [Single, List.forall_mem_map, h]

@[simp] theorem newline_not_mem_decimal (n : ℕ) : '\n' ∉ decimal n := fun h ↦
  absurd (isDigit_of_mem_decimal h) (by decide)

@[simp] theorem newline_not_mem_count (hnoun : '\n' ∉ noun) (number : ℕ) : '\n' ∉ count number noun := by
  unfold count
  split
  · simp [hnoun]
  · simp [hnoun]
  · simp [hnoun, newline_not_mem_decimal]

@[simp] theorem newline_not_mem_field (hlabel : '\n' ∉ label) : '\n' ∉ field label text ↔ '\n' ∉ text := by
  simp [field, hlabel]

@[simp] theorem newline_not_mem_oneLine (text : Text) : '\n' ∉ oneLine text := by
  intro h
  have hflat : '\n' ∈ text.map fun c ↦ if isControl c then ' ' else c :=
    (List.dropWhile_suffix _).subset ((List.rdropWhile_prefix _ _).subset h)
  obtain ⟨c, -, hc⟩ := List.mem_map.mp hflat
  split_ifs at hc with hcontrol
  · exact absurd hc (by decide)
  · rw [hc] at hcontrol
    exact hcontrol (by decide)

theorem newline_not_mem_notShown (hnoun : '\n' ∉ noun) (hmark : '\n' ∉ mark) (left : ℕ) :
    '\n' ∉ notShown noun mark left := by
  simp [notShown, hmark, newline_not_mem_count hnoun]

theorem single_bullets (hnoun : '\n' ∉ noun) (hmark : '\n' ∉ mark) (cap : ℕ) :
    Single (bullets lines cap noun mark) ↔ Single (lines.take cap) := by
  have hmore : Single (if cap < lines.length then [notShown noun mark (lines.length - cap)] else []) := by
    split_ifs
    · simp [newline_not_mem_notShown hnoun hmark]
    · exact single_nil
  rw [bullets, single_append, and_iff_left hmore]
  refine single_map (fun line ↦ ?_) _
  rw [List.mem_append, not_or, and_iff_right hmark]

theorem single_list (hlabel : '\n' ∉ label) (hnoun : '\n' ∉ noun) :
    Single (list label noun lines) ↔ Single (lines.take LIST) := by
  rw [list, single_cons, single_bullets hnoun (by decide), newline_not_mem_field hlabel,
    and_iff_right (newline_not_mem_count hnoun _)]

/-! ### Values with a shape are single lines -/

theorem newline_not_mem_of_all {p : Char → Bool} (hp : p '\n' = false) (h : text.all p = true) :
    '\n' ∉ text := fun hmem ↦ by
  rw [List.all_eq_true.mp h _ hmem] at hp
  cases hp

theorem newline_not_mem_of_any {p : Char → Bool} (hp : p '\n' = true) (h : text.any p = false) :
    '\n' ∉ text := fun hmem ↦ by
  rw [List.any_eq_false] at h
  exact h _ hmem hp

theorem accepts_structured {cap : ℕ} {structured : Text → Bool} {value : Text}
    (h : Model.accepts cap structured value = true) : structured value = true := by
  rw [Model.accepts, Bool.and_eq_true] at h
  exact h.2

@[simp] theorem newline_not_mem_slug (slug : Slug) : '\n' ∉ slug.text := by
  have h := accepts_structured slug.shaped
  rw [Model.isSlug, Bool.and_eq_true] at h
  exact newline_not_mem_of_all (by decide) h.2

@[simp] theorem newline_not_mem_line (line : Scalar Model.LINE) : '\n' ∉ line.text := by
  have h := accepts_structured line.shaped
  rw [Bool.not_eq_true'] at h
  exact newline_not_mem_of_any (by decide) h

@[simp] theorem newline_not_mem_branch (branch : BranchName) : '\n' ∉ branch.text := by
  have h : Model.Shapes.isBranchName branch.text = true := accepts_structured branch.shaped
  rw [Model.Shapes.isBranchName, Bool.and_eq_true, Bool.not_eq_true'] at h
  exact newline_not_mem_of_any (by decide) h.2

@[simp] theorem newline_not_mem_oid (oid : Oid) : '\n' ∉ oid.text := by
  have h : Model.Shapes.isObjectId oid.text = true := accepts_structured oid.shaped
  rw [Model.Shapes.isObjectId, Bool.and_eq_true] at h
  exact fun hmem ↦ absurd (Model.Shapes.isHexDigest_iff.mp h.2 _ hmem) (by decide)

@[simp] theorem newline_not_mem_instant (ts : Timestamp) : '\n' ∉ ts.text :=
  newline_not_mem_of_all (by decide) (accepts_structured ts.shaped)

@[simp] theorem newline_not_mem_envName (name : EnvName) : '\n' ∉ name.text := by
  have h := accepts_structured name.shaped
  rw [Bool.and_eq_true] at h
  cases htext : name.text with
  | nil => exact List.not_mem_nil
  | cons first rest =>
    rw [htext] at h
    have hrest := newline_not_mem_of_all (by decide) h.2
    rw [List.mem_cons, not_or]
    refine ⟨?_, hrest⟩
    rintro rfl
    simp at h

@[simp] theorem newline_not_mem_short (oid : Oid) : '\n' ∉ short oid.text := fun h ↦
  newline_not_mem_oid oid (List.mem_of_mem_take h)

/-! ### Texts that are written as they came -/

/-- A file whose line is a single one. -/
structure FileChange.Plain (file : FileChange) : Prop where
  letter : file.letter ≠ '\n'
  path : '\n' ∉ file.path
  origin : ∀ origin ∈ file.origin, '\n' ∉ origin

theorem newline_not_mem_fileLine (file : FileChange) : '\n' ∉ fileLine file ↔ file.Plain := by
  have hline : '\n' ∉ fileLine file ↔
      file.letter ≠ '\n' ∧ '\n' ∉ file.path ∧ ∀ origin ∈ file.origin, '\n' ∉ origin := by
    unfold fileLine
    cases file.origin with
    | none => simp [eq_comm]
    | some origin => simp [eq_comm]
  rw [hline]
  exact ⟨fun ⟨letter, path, origin⟩ ↦ ⟨letter, path, origin⟩, fun h ↦ ⟨h.letter, h.path, h.origin⟩⟩

theorem newline_not_mem_commitLine (commit : Commit) :
    '\n' ∉ commitLine commit ↔ '\n' ∉ commit.subject := by
  have hshort : '\n' ∉ commit.short := fun h ↦
    newline_not_mem_oid commit.oid (List.mem_of_mem_take h)
  simp [commitLine, hshort]

theorem single_files (changes : List FileChange) (cap : ℕ) :
    Single ((changes.map fileLine).take cap) ↔ ∀ file ∈ changes.take cap, file.Plain := by
  rw [← List.map_take]
  exact single_map newline_not_mem_fileLine _

theorem single_commits (commits : List Commit) (cap : ℕ) :
    Single ((commits.map commitLine).take cap) ↔ ∀ commit ∈ commits.take cap, '\n' ∉ commit.subject := by
  rw [← List.map_take]
  exact single_map newline_not_mem_commitLine _

/-- What the memory of a unit shows of its branch holds no newline. -/
structure Work.Plain (work : Work) : Prop where
  base : '\n' ∉ work.base
  uncommitted : ∀ file ∈ work.uncommitted.take LIST, file.Plain
  touched : ∀ file ∈ work.touched.take LIST, file.Plain
  commits : ∀ commit ∈ work.commits.take LIST, '\n' ∉ commit.subject
  gained : ∀ commit ∈ work.gained.take (CAP - 3), '\n' ∉ commit.subject

/-- What the memory of another unit shows of a branch holds no newline. -/
structure Work.PlainBeside (work : Work) : Prop where
  base : '\n' ∉ work.base
  commits : ∀ commit ∈ work.commits.take (allotted work.commits.length work.touched.length).1.1,
    '\n' ∉ commit.subject
  touched : ∀ file ∈ work.touched.take (allotted work.commits.length work.touched.length).1.2,
    file.Plain

/-- What is written as it came holds no newline. -/
structure Plain (subject : Snapshot) (project : List Snapshot) : Prop where
  home : ∀ home ∈ subject.home, '\n' ∉ home
  work : ∀ work ∈ subject.work, work.Plain
  outcomes : ∀ event ∈ subject.commands, ∀ code ∈ reference event EXIT_CODE, '\n' ∉ code
  results : ∀ event ∈ subject.tests.head?, ∀ name ∈ [FAILING, PASSING],
    ∀ count ∈ reference event name, '\n' ∉ count
  others : ∀ other ∈ others subject project, ∀ work ∈ other.work, work.PlainBeside

@[simp] theorem newline_not_mem_measured (work : Work) : '\n' ∉ measured work := by
  unfold measured
  cases work.baseCommit with
  | none => decide
  | some oid => simp

@[simp] theorem newline_not_mem_integrationLabel (integration : Integration) :
    '\n' ∉ integrationLabel integration := by
  cases integration with
  | integrated reason => cases reason <;> decide
  | _ => decide

theorem single_placed (work : Work) : Single (placed work) ↔ '\n' ∉ work.base := by
  unfold placed
  generalize (work.forkedAt.filter _) = forked
  cases forked <;> simp

theorem single_standing (subject : Snapshot) : Single (standing subject) ↔
    ∀ work ∈ subject.work, '\n' ∉ work.base ∧ (∀ file ∈ work.uncommitted.take LIST, file.Plain) ∧
      (∀ file ∈ work.touched.take LIST, file.Plain) ∧
      ∀ commit ∈ work.commits.take LIST, '\n' ∉ commit.subject := by
  unfold standing
  cases subject.work with
  | none => simp
  | some work =>
    simp only [Option.mem_some_iff, forall_eq', single_append, single_placed, uncommittedList,
      touchedList, commitList, files]
    rw [single_list (by decide) (by decide), single_list (by decide) (by decide),
      single_list (by decide) (by decide), single_files, single_files, single_commits, and_assoc,
      and_assoc]

theorem newline_not_mem_outcome (event : Event) :
    '\n' ∉ outcome event ↔ ∀ code ∈ reference event EXIT_CODE, '\n' ∉ code := by
  unfold outcome
  cases reference event EXIT_CODE with
  | none => simp
  | some code => simp

theorem single_commands (subject : Snapshot) (hcommands : subject.commands.length ≤ LIST) :
    Single (commands subject) ↔
      ∀ event ∈ subject.commands, ∀ code ∈ reference event EXIT_CODE, '\n' ∉ code := by
  rw [commands, single_list (by decide) (by decide), ← List.map_take,
    List.take_of_length_le hcommands]
  refine single_map (fun event ↦ ?_) _
  rw [← newline_not_mem_outcome]
  simp [newline_not_mem_oneLine]

@[simp] theorem newline_not_mem_intercalate {separator : Text} (hseparator : '\n' ∉ separator) :
    '\n' ∉ List.intercalate separator lines ↔ Single lines := by
  induction lines with
  | nil => simp [List.intercalate]
  | cons first rest ih =>
    cases rest with
    | nil => simp [List.intercalate]
    | cons next rest =>
      have hcut : List.intercalate separator (first :: next :: rest) =
          first ++ separator ++ List.intercalate separator (next :: rest) := by
        simp [List.intercalate]
      rw [hcut, List.mem_append, List.mem_append, not_or, not_or, ih, and_iff_left hseparator]
      exact single_cons.symm

theorem single_results (event : Event) : Single (results event) ↔
    ∀ name ∈ [FAILING, PASSING], ∀ count ∈ reference event name, '\n' ∉ count := by
  simp only [results, List.filterMap_cons, List.filterMap_nil, List.forall_mem_cons]
  cases reference event FAILING with
  | none =>
    cases reference event PASSING with
    | none => simp
    | some passing => simp
  | some failing =>
    cases reference event PASSING with
    | none => simp
    | some passing => simp

/-- What is said of the tests. Assumes: what became of each command is a single line. -/
theorem single_tests (subject : Snapshot) (testCommand : Option Text)
    (houtcomes : ∀ event ∈ subject.commands, ∀ code ∈ reference event EXIT_CODE, '\n' ∉ code) :
    Single (tests subject testCommand).toList ↔ ∀ event ∈ subject.tests.head?,
      ∀ name ∈ [FAILING, PASSING], ∀ count ∈ reference event name, '\n' ∉ count := by
  unfold tests
  cases htests : subject.tests with
  | nil =>
    refine iff_of_true ?_ (by simp)
    cases testCommand with
    | none => exact single_nil
    | some command =>
      cases hfind : subject.commands.find? (isCommand ·.body command) with
      | none => simp [hfind]
      | some event =>
        have houtcome := (newline_not_mem_outcome event).mpr
          (houtcomes event (List.mem_of_find?_eq_some hfind))
        simp [hfind, houtcome]
  | cons event rest =>
    simp only [List.head?_cons, Option.mem_some_iff, forall_eq', ← single_results]
    cases hresults : results event with
    | nil => simp
    | cons first others => simp

theorem single_standIns (subject : Snapshot) : Single (standIns subject).toList := by
  unfold standIns
  split_ifs
  · exact single_nil
  · have hnames : Single (subject.standIns.map Scalar.text) :=
      (single_map (p := fun _ ↦ True) (fun name ↦ by simp) _).mpr fun _ _ ↦ trivial
    simp [hnames]

theorem single_facts (subject : Snapshot) (testCommand : Option Text)
    (hcommands : subject.commands.length ≤ LIST) :
    Single (facts subject testCommand) ↔ (∀ home ∈ subject.home, '\n' ∉ home) ∧
      Single (standing subject) ∧
      (∀ event ∈ subject.commands, ∀ code ∈ reference event EXIT_CODE, '\n' ∉ code) ∧
      ∀ event ∈ subject.tests.head?, ∀ name ∈ [FAILING, PASSING],
        ∀ count ∈ reference event name, '\n' ∉ count := by
  have hobjective : '\n' ∉ objective subject := by
    unfold objective
    split
    · decide
    · split
      · simp
      · simp
      · simp
  have hstatus : '\n' ∉ statusLabel subject.unit.status := by
    cases subject.unit.status <;> decide
  have hhome : '\n' ∉ home subject ↔ ∀ home ∈ subject.home, '\n' ∉ home := by
    unfold home
    cases subject.home with
    | none => simp
    | some path => simp
  have hfacts : Single (facts subject testCommand) ↔ (∀ home ∈ subject.home, '\n' ∉ home) ∧
      Single (standing subject) ∧ Single (commands subject) ∧
      Single (tests subject testCommand).toList := by
    simp [facts, hobjective, hstatus, hhome, single_standIns]
  rw [hfacts, single_commands subject hcommands]
  refine and_congr_right fun _ ↦ and_congr_right fun _ ↦ and_congr_right fun houtcomes ↦ ?_
  exact single_tests subject testCommand houtcomes

@[simp] theorem newline_not_mem_kindLabel (kind : EventKind) : '\n' ∉ kindLabel kind := by
  cases kind <;> decide

theorem single_stated (subject : Snapshot) : Single (stated subject) := by
  unfold stated
  split_ifs
  · simp
  · have hevents : Single (subject.stated.map fun event ↦
        "- ".toList ++ event.ts.text ++ ' ' :: kindLabel event.kind ++ " (".toList ++
          event.actor.text ++ "): ".toList ++ oneLine event.body) :=
      (single_map (p := fun _ ↦ True) (fun event ↦ by simp) _).mpr fun _ _ ↦ trivial
    rw [single_append, single_append]
    exact ⟨⟨by simp, hevents⟩, by simp⟩

theorem single_unread (subject : Snapshot) : Single (unread subject) := by
  unfold unread
  split_ifs
  · exact single_nil
  · have hnotes : Single (subject.notes.map fun note ↦ "- ".toList ++ oneLine note) :=
      (single_map (p := fun _ ↦ True) (fun note ↦ by simp) _).mpr fun _ _ ↦ trivial
    rw [single_append, single_append]
    exact ⟨⟨by simp, hnotes⟩, by simp⟩

theorem single_gainedLines (subject : Snapshot) : Single (gainedLines (gained subject)) ↔
    ∀ work ∈ subject.work, '\n' ∉ work.base ∧
      ∀ commit ∈ work.gained.take (CAP - 3), '\n' ∉ commit.subject := by
  unfold gained
  cases subject.work with
  | none => simp [gainedLines]
  | some work =>
    simp only [Option.map_some, gainedLines, single_append, single_cons, Option.mem_some_iff,
      forall_eq']
    rw [single_bullets (by decide) (by decide), single_commits]
    simp [gainedHeading]

theorem single_sectionLines (hlabel : '\n' ∉ label) (take : ℕ) :
    Single (sectionLines label lines take) ↔ Single (lines.take take) := by
  unfold sectionLines
  split_ifs with htake
  · rw [htake]
    exact iff_of_true single_nil single_nil
  · rw [single_cons, and_iff_right hlabel]
    exact single_map (fun line ↦ by simp) _

@[simp] theorem newline_not_mem_dropped (commits files : ℕ) : '\n' ∉ dropped commits files := by
  have hcap := newline_not_mem_decimal CAP
  unfold dropped
  generalize decimal CAP = cap at hcap ⊢
  simp [hcap]

theorem single_siblingLines (sibling : Entry) : Single (siblingLines sibling) ↔
    '\n' ∉ sibling.heading ∧ '\n' ∉ summary sibling ∧
      Single (sibling.commits.take (allotted sibling.commits.length sibling.files.length).1.1) ∧
      Single (sibling.files.take (allotted sibling.commits.length sibling.files.length).1.2) := by
  have hdropped (dropping : Bool) (commits files : ℕ) :
      Single (if dropping then [dropped commits files] else []) := by
    split_ifs
    · simp
    · exact single_nil
  unfold siblingLines
  generalize allotted _ _ = taken
  simp only [single_append, @single_sectionLines "commits:".toList sibling.commits (by decide),
    @single_sectionLines "files:".toList sibling.files (by decide), hdropped]
  simp [and_assoc]

theorem single_entry (other : Snapshot) : Single (siblingLines (entry other)) ↔
    ∀ work ∈ other.work, work.PlainBeside := by
  have hheading : '\n' ∉ (entry other).heading := by
    unfold entry
    cases other.work with
    | none => simp
    | some work => simp
  rw [single_siblingLines, and_iff_right hheading]
  cases hwork : other.work with
  | none =>
    have hentry : entry other = ⟨(entry other).heading, none, 0, 0, [], [], some (noHome other)⟩ := by
      simp only [entry, hwork]
    have htrouble : '\n' ∉ noHome other := by
      unfold noHome
      split_ifs <;> decide
    rw [hentry]
    simp [summary, htrouble]
  | some work =>
    have hentry : entry other = ⟨(entry other).heading, some work.base, work.divergence.ahead,
        work.uncommitted.length, work.commits.map commitLine, work.touched.map fileLine, none⟩ := by
      simp only [entry, hwork]
    rw [hentry]
    simp only [Option.mem_some_iff, forall_eq', List.length_map, single_files, single_commits]
    have hsummary : '\n' ∉ summary ⟨(entry other).heading, some work.base, work.divergence.ahead,
        work.uncommitted.length, work.commits.map commitLine, work.touched.map fileLine, none⟩ ↔
        '\n' ∉ work.base := by
      simp [summary]
    rw [hsummary]
    exact ⟨fun ⟨base, commits, touched⟩ ↦ ⟨base, commits, touched⟩,
      fun h ↦ ⟨h.base, h.commits, h.touched⟩⟩

/-- The lines of a memory are single ones exactly when what is written as it came holds no newline. -/
theorem single_written_iff (subject : Snapshot) (project : List Snapshot) (testCommand : Option Text)
    (hcommands : subject.commands.length ≤ LIST) :
    Single (written subject (ledger subject project) testCommand) ↔ Plain subject project := by
  have hheading : Single (heading subject) := by
    simp only [heading, single_cons, single_nil, and_true]
    exact ⟨by simp, by simp, by simp, by simp⟩
  have hempty : Single (if (ledger subject project).siblings.isEmpty then
      ["No other unit of this project has work off the base.".toList, []] else []) := by
    split_ifs <;> simp
  have hsiblings : Single ((ledger subject project).siblings.flatMap siblingLines) ↔
      ∀ other ∈ others subject project, ∀ work ∈ other.work, work.PlainBeside := by
    simp only [← single_entry]
    simp only [ledger, Single, List.forall_mem_flatMap, List.forall_mem_map]
  have htitle : Single ["## Project ledger".toList, []] := by simp
  simp only [written, projectLedger, single_append, single_stated, single_unread, hheading, hempty,
    hsiblings, htitle, true_and, and_true]
  rw [single_facts subject testCommand hcommands, single_standing]
  constructor
  · rintro ⟨⟨hhome, hstanding, houtcomes, hresults⟩, hgained, hothers⟩
    refine ⟨hhome, fun work hwork ↦ ?_, houtcomes, hresults, hothers⟩
    obtain ⟨hbase, huncommitted, htouched, hcommits⟩ := hstanding work hwork
    exact ⟨hbase, huncommitted, htouched, hcommits,
      ((single_gainedLines subject).mp hgained work hwork).2⟩
  · rintro ⟨hhome, hwork, houtcomes, hresults, hothers⟩
    refine ⟨⟨hhome, fun work hmem ↦ ?_, houtcomes, hresults⟩, ?_, hothers⟩
    · exact ⟨(hwork work hmem).base, (hwork work hmem).uncommitted, (hwork work hmem).touched,
        (hwork work hmem).commits⟩
    · exact (single_gainedLines subject).mpr fun work hmem ↦
        ⟨(hwork work hmem).base, (hwork work hmem).gained⟩

end Nodal.Context.Memory
