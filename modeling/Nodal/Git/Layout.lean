import Nodal.Foundation.Gitconfig
import Nodal.Foundation.Places

/-!
# The layout of a checkout, read from its shape

`git/worktree.rs`: where a directory looks like an ordinary repository, its layout is answered without Git.
Whether it has a working tree is taken from the lines of its configuration that say `bare`. Git reads that
file by its own grammar, and takes a directory for its own by more than its shape. So the answer is the one
Git would have given exactly when Git takes the directory for its own and reads no `core.bare` that is true
(`agrees_iff`). In a file of lines as Git writes them, none is missed (`lastTruth_of_plain`).
-/

set_option autoImplicit false

namespace Nodal.Git.Shape

open Foundation Foundation.Places Foundation.Gitconfig

/-! ### A disk -/

/-- What is on a disk, and how Git stands to it. -/
structure Disk where
  fs : Files
  /-- What a file holds, where it can be read. Bytes that are not text are characters of their own. -/
  text : Place → Option Text
  /-- Whether what a file holds is UTF-8. -/
  utf8 : Place → Bool
  /-- The path that a `.git` file or a `commondir` file names. -/
  pointer : Place → Option Route
  /-- What else Git refuses a repository for: its owner, its format, a working tree that is not there. -/
  refused : Place → List Setting → Bool
  /-- Whether Git goes on in the directory above one that is no repository. -/
  climbs : Place → Bool
  /-- Whether a variable is set. -/
  isSet : String → Bool

/-- How a repository is laid out. -/
inductive Kind
  /-- An ordinary repository with its own Git directory. -/
  | main
  /-- A linked worktree whose objects and refs live in another repository. -/
  | linked
  /-- A repository with no working tree. -/
  | bare
  deriving DecidableEq

/-- Where a repository keeps its Git state. -/
structure Layout where
  kind : Kind
  /-- The Git directory of this checkout. -/
  gitDir : Place
  /-- The shared Git directory. -/
  commonDir : Place
  deriving DecidableEq

/-- Classify from the three values `git rev-parse` reports. -/
def classify (gitDir commonDir : Place) (bare : Bool) : Layout :=
  ⟨if bare then .bare else if gitDir = commonDir then .main else .linked, gitDir, commonDir⟩

/-- A Git directory that was found, and whether it is the directory itself that was asked about. -/
structure Found where
  dir : Place
  itself : Bool

def join (path : Route) (name : String) : Route := ⟨path.start, .name name :: path.parts⟩

namespace Disk

variable (disk : Disk)

/-! ### The shape -/

/-- The variables that move a repository's Git directory away from where the working tree keeps it. -/
def RELOCATING : List String := ["GIT_DIR", "GIT_COMMON_DIR", "GIT_WORK_TREE"]

def present (path : Route) : Bool := (disk.fs.canonicalize path).isSome

def readToString (path : Route) : Option Text :=
  (disk.fs.canonicalize path).bind fun place ↦ if disk.utf8 place then disk.text place else none

/-- The value of a `bare` line of a configuration file, when the line states one. -/
def bareValue (line : Text) : Option Text :=
  (Text.splitOnce '=' line).bind fun (key, value) ↦
    if Text.trim key = "bare".toList then some (Text.trim value) else none

/-- Whether a value says that there is a working tree. -/
def isFalse (value : Text) : Bool :=
  ["false".toList, "no".toList, "off".toList, "0".toList].contains (value.map Char.toLower)

/-- Whether every `bare` line of a text is false. -/
def allFalse (text : Text) : Bool := ((Text.lines text).filterMap bareValue).all isFalse

/-- Whether the configuration leaves the repository with a working tree. -/
def statesAWorkingTree (config : Route) : Bool := (disk.readToString config).any allFalse

/-- The layout of an ordinary checkout, read from the shape on disk. -/
def ordinary (root : Route) : Option Layout :=
  let gitDir := join root ".git"
  if RELOCATING.any disk.isSet then none
  else if !disk.fs.isDir gitDir || !disk.present (join gitDir "HEAD") ||
      !disk.present (join gitDir "refs") then none
  else if disk.present (join gitDir "commondir") then none
  else if !disk.statesAWorkingTree (join gitDir "config") then none
  else (disk.fs.canonicalize gitDir).map fun canonical ↦ ⟨.main, canonical, canonical⟩

/-! ### Git -/

/-- Where a path leads from a directory. -/
def from_ (place : Place) (parts : List Part) : Option Place :=
  (disk.fs.walk disk.fs.limit place parts).toOption.map Prod.snd

def isDirAt (place : Place) (name : String) : Bool :=
  (disk.from_ place [.name name]).any fun found ↦ disk.fs.node found = some .directory

/-- Whether the text of a `HEAD` names a ref under `refs/`, or an object. -/
def names (text : Text) : Bool :=
  ("ref:".toList.isPrefixOf text && "refs/".toList.isPrefixOf ((text.drop 4).dropWhile isSpace)) ||
    (40 ≤ text.length && (text.take 40).all fun c ↦
      c.isDigit || ('a' ≤ c && c ≤ 'f') || ('A' ≤ c && c ≤ 'F'))

def validHead (place : Place) : Bool :=
  match disk.fs.node ("HEAD" :: place) with
  | some (.link target) =>
    match target.parts.reverse with
    | .name "refs" :: _ :: _ => target.start = .here
    | _ => false
  | some .file => (disk.text ("HEAD" :: place)).any names
  | _ => false

/-- The directory that a Git directory shares its objects and its refs with: itself, or the one it names. -/
def common (place : Place) : Option Place :=
  if disk.fs.node ("commondir" :: place) = none then some place
  else (disk.from_ place [.name "commondir"]).bind disk.pointer |>.bind fun path ↦
    disk.from_ (Files.base path.start place) path.parts.reverse

/-- Whether Git takes a directory for a Git directory. -/
def isGitDirectory (place : Place) : Bool :=
  disk.validHead place && (disk.common place).any fun common ↦
    disk.isDirAt common "objects" && disk.isDirAt common "refs"

/-- What one directory says: a repository, a `.git` file that leads to none, or nothing. -/
def look (place : Place) : Option (Option Found) :=
  let itself := if disk.isGitDirectory place then some (some ⟨place, true⟩) else none
  match disk.from_ place [.name ".git"] with
  | none => itself
  | some found =>
    if disk.fs.node found = some .file then
      some <| ((disk.pointer found).bind fun path ↦
        disk.from_ (Files.base path.start place) path.parts.reverse).bind fun dir ↦
          if disk.isGitDirectory dir then some ⟨dir, false⟩ else none
    else if disk.isGitDirectory found then some (some ⟨found, false⟩)
    else itself

/-- The repository of a directory, or of the nearest one above it. -/
def discover : Place → Option Found
  | [] => (disk.look []).join
  | name :: above => match disk.look (name :: above) with
    | some found => found
    | none => if disk.climbs (name :: above) then discover above else none

def settingsAt (place : Place) (name : String) : Option (List Setting) :=
  match disk.from_ place [.name name] with
  | none => some []
  | some file => (disk.text file).bind settings

/-- What the configuration of a Git directory says of its working tree: nothing, or whether there is none. -/
def bare (dir common : Place) : Option (Option Bool) := do
  let shared ← disk.settingsAt common "config"
  let each ← lastTruth "extensions.worktreeconfig".toList shared
  let stated ← lastTruth "core.bare".toList shared
  let own ← if each = some true then
      (disk.settingsAt dir "config.worktree").bind (lastTruth "core.bare".toList)
    else some none
  if disk.refused dir shared then none
  else some (own.or (if common = dir ∨ each = some true then stated else none))

/-- The layout that asking `git rev-parse` gives. -/
def asked (root : Route) : Option Layout := do
  let (_, place) ← (disk.fs.lead root).toOption
  if disk.fs.node place ≠ some .directory then none
  let found ← disk.discover place
  let common ← disk.common found.dir
  let bare ← disk.bare found.dir common
  some (classify found.dir common (if found.itself then bare ≠ some false else bare = some true))

end Disk

/-! ### What is asked -/

/-- Where a layout is answered from the shape, it is the one Git would have given. -/
def Agrees (disk : Disk) (root : Route) : Prop :=
  ∀ layout, disk.ordinary root = some layout → disk.asked root = some layout

/-- Git takes a directory for a Git directory of its own, and reads no `core.bare` that is true. -/
structure Sound (disk : Disk) (dir : Place) : Prop where
  head : disk.validHead dir = true
  alone : disk.common dir = some dir
  objects : disk.isDirAt dir "objects" = true
  refs : disk.isDirAt dir "refs" = true
  working : ∃ bare, disk.bare dir dir = some bare ∧ bare ≠ some true

/-! ### The theorem -/

section Whole

variable {disk : Disk} {root : Route} {place dir : Place} {found : Found}

/-- What is found is a Git directory. -/
theorem isGitDirectory_of_look (h : disk.look place = some (some found)) :
    disk.isGitDirectory found.dir = true := by
  have hitself (h : (if disk.isGitDirectory place then some (some (⟨place, true⟩ : Found)) else none) =
      some (some found)) : disk.isGitDirectory found.dir = true := by
    split_ifs at h with hplace
    cases h
    exact hplace
  rw [Disk.look] at h
  split at h
  · exact hitself h
  · split_ifs at h with hfile hdir hplace
    · obtain ⟨dir, -, hdir⟩ := Option.bind_eq_some_iff.mp (Option.some.inj h)
      split_ifs at hdir with hgit
      cases hdir
      exact hgit
    · cases h
      exact hdir
    · cases h
      exact hplace

theorem isGitDirectory_of_discover (h : disk.discover place = some found) :
    disk.isGitDirectory found.dir = true := by
  induction place with
  | nil =>
    rw [Disk.discover] at h
    cases hlook : disk.look [] with
    | none => rw [hlook] at h; cases h
    | some answer =>
      rw [hlook, Option.join_some] at h
      exact isGitDirectory_of_look (hlook.trans (congrArg some h))
  | cons name above ih =>
    rw [Disk.discover] at h
    split at h
    · next answer hlook => exact isGitDirectory_of_look (hlook.trans (congrArg some h))
    · split_ifs at h
      exact ih h

/-- What Git finds where there is a `.git` directory, if it takes it for a Git directory. -/
theorem discover_of_isGitDirectory (hgit : disk.from_ place [.name ".git"] = some dir)
    (hnode : disk.fs.node dir = some .directory) (h : disk.isGitDirectory dir = true) :
    disk.discover place = some ⟨dir, false⟩ := by
  have hlook : disk.look place = some (some ⟨dir, false⟩) := by
    rw [Disk.look, hgit]
    dsimp only
    rw [if_neg (by rw [hnode]; nofun), if_pos h]
  cases place with
  | nil => rw [Disk.discover, hlook]; rfl
  | cons name above => rw [Disk.discover, hlook]

/-- A layout that is answered from the shape is that of a `.git` directory where Git is asked. -/
theorem ordinary_eq_some {layout : Layout} (h : disk.ordinary root = some layout) :
    ∃ left place dir, disk.fs.lead root = .ok (left, place) ∧ disk.fs.node place = some .directory ∧
      disk.from_ place [.name ".git"] = some dir ∧ disk.fs.node dir = some .directory ∧
      layout = ⟨.main, dir, dir⟩ := by
  rw [Disk.ordinary] at h
  split_ifs at h with _ hshape
  obtain ⟨dir, hdir, rfl⟩ := Option.map_eq_some_iff.mp h
  have hisdir : disk.fs.isDir (join root ".git") = true := by
    by_contra hnot
    rw [eq_false_of_ne_true hnot] at hshape
    exact hshape rfl
  obtain ⟨other, hother, hnode⟩ := Files.isDir_iff.mp hisdir
  obtain rfl := Option.some.inj (hdir.symm.trans hother)
  obtain ⟨-, last, hlead⟩ := Files.canonicalize_eq_some_iff.mp hdir
  have hjoined : disk.fs.lead ⟨root.start, [.name ".git"] ++ root.parts⟩ = .ok (last, dir) := hlead
  obtain ⟨mid, place, hroot, hleads⟩ := Files.lead_split hjoined
  have hplace : disk.fs.node place = some .directory := by
    cases hleads with
    | down hplace => exact hplace
    | follow hplace => exact hplace
  -- Git stands in the directory and follows as many links again.
  have hmid : mid ≤ disk.fs.limit := (Files.lead_eq_ok_iff.mp hroot).left_le
  have hagain : Files.Leads disk.fs (mid + (disk.fs.limit - mid)) place [.name ".git"]
      (last + (disk.fs.limit - mid)) dir := hleads.more _
  rw [Nat.add_sub_cancel' hmid] at hagain
  refine ⟨mid, place, dir, hroot, hplace, ?_, hnode, rfl⟩
  rw [Disk.from_, Files.walk_eq_ok_iff.mpr hagain]
  rfl

theorem asked_eq {left : ℕ} (hlead : disk.fs.lead root = .ok (left, place))
    (hplace : disk.fs.node place = some .directory) : disk.asked root =
      (disk.discover place).bind fun found ↦ (disk.common found.dir).bind fun common ↦
        (disk.bare found.dir common).bind fun bare ↦
          some (classify found.dir common
            (if found.itself then bare ≠ some false else bare = some true)) := by
  rw [Disk.asked, hlead]
  show (if disk.fs.node place ≠ some .directory then _ else _) = _
  rw [if_neg (not_not_intro hplace)]
  rfl

theorem isGitDirectory_iff_of_alone (h : disk.common dir = some dir) : disk.isGitDirectory dir = true ↔
    disk.validHead dir = true ∧ disk.isDirAt dir "objects" = true ∧ disk.isDirAt dir "refs" = true := by
  rw [Disk.isGitDirectory, h, Option.any_some, Bool.and_eq_true, Bool.and_eq_true]

end Whole

/-! ### Files as Git writes them -/

section Plain

variable {lines : List Written}

theorem bareValue_setting {value : Text} (h : (Written.setting "bare".toList value).Plain) :
    Disk.bareValue (Written.body (.setting "bare".toList value)) = some value := by
  obtain ⟨-, -, hhead, hlast, -⟩ := h
  have hcut : Text.splitOnce '=' (Written.body (.setting "bare".toList value)) =
      some ("\tbare ".toList, ' ' :: value) :=
    @Text.splitOnce_append '=' "\tbare ".toList (' ' :: value) (by decide)
  have htrim : Text.trim (' ' :: value) = value := by
    have hstart : Text.trimStart (' ' :: value) = value :=
      (List.dropWhile_cons_of_pos (by decide)).trans (Text.trimStart_eq_self_iff.mpr hhead)
    rw [Text.trim, hstart, List.rdropWhile_eq_self_iff]
    intro hne
    rw [hlast _ (List.getLast?_eq_some_getLast hne)]
    exact Bool.false_ne_true
  rw [Disk.bareValue, hcut, Option.bind_some]
  dsimp only
  rw [if_pos (by decide +kernel), htrim]

/-- Each setting comes from a line, after no stem or after one that ends in a dot. -/
theorem mem_readFrom {setting : Setting} {stem : Text} (hstem : stem = [] ∨ ∃ name, stem = name ++ ['.'])
    (h : setting ∈ readFrom stem lines) : ∃ front key value, Written.setting key value ∈ lines ∧
      setting = ⟨front ++ key, some value⟩ ∧ (front = [] ∨ ∃ name, front = name ++ ['.']) := by
  induction lines generalizing stem with
  | nil => cases h
  | cons line lines ih =>
    cases line with
    | heading name =>
      obtain ⟨front, key, value, hmem, hrest⟩ := ih (Or.inr ⟨name, rfl⟩) h
      exact ⟨front, key, value, List.mem_cons_of_mem _ hmem, hrest⟩
    | subheading name sub =>
      obtain ⟨front, key, value, hmem, hrest⟩ := ih (Or.inr ⟨name ++ '.' :: sub, rfl⟩) h
      exact ⟨front, key, value, List.mem_cons_of_mem _ hmem, hrest⟩
    | setting key value =>
      rcases List.mem_cons.mp h with rfl | h
      · exact ⟨stem, key, value, List.mem_cons_self, rfl, hstem⟩
      · obtain ⟨front, key, value, hmem, hrest⟩ := ih hstem h
        exact ⟨front, key, value, List.mem_cons_of_mem _ hmem, hrest⟩

/-- A setting is `core.bare` only where its line says `bare`. -/
theorem key_eq_bare {front key : Text} (hkey : IsName key)
    (hfront : front = [] ∨ ∃ name, front = name ++ ['.']) (h : front ++ key = "core.bare".toList) : key = "bare".toList := by
  have hdot : '.' ∉ key := fun hc ↦ absurd (hkey _ hc).1 (by decide)
  rcases hfront with rfl | ⟨name, rfl⟩
  · refine absurd ?_ hdot
    rw [List.nil_append] at h
    rw [h]
    decide
  · rw [List.append_assoc] at h
    have hreversed := congrArg List.reverse h
    rw [List.reverse_append, List.reverse_append, List.append_assoc] at hreversed
    have hparts : key.reverse ++ '.' :: name.reverse = "erab".toList ++ '.' :: "eroc".toList := hreversed
    have hback := (Text.append_cons_inj (List.mem_reverse.not.mpr hdot) (by decide) hparts).1
    rw [← List.reverse_reverse key, hback]
    rfl

theorem truth_of_isFalse {value : Text} (h : Disk.isFalse value = true) :
    truth (some value) = some false := by
  have hword : value.map Char.toLower = "false".toList ∨ value.map Char.toLower = "no".toList ∨
      value.map Char.toLower = "off".toList ∨ value.map Char.toLower = "0".toList := by
    simpa [Disk.isFalse] using h
  rcases hword with hword | hword | hword | hword
  · rw [truth, hword]
    rfl
  · rw [truth, hword]
    rfl
  · rw [truth, hword]
    rfl
  · obtain ⟨c, rfl, hc⟩ := List.map_eq_singleton_iff.mp hword
    rw [(Text.toLower_eq_iff (by decide)).mp hc]
    decide +kernel

/-- Of settings that are all false, the last one is false. -/
theorem lastTruth_of_all_false {name : Text} {read : List Setting}
    (h : ∀ setting ∈ read, setting.name = name → truth setting.value = some false) :
    ∃ bare, lastTruth name read = some bare ∧ bare ≠ some true := by
  have hfold (found : List Setting) (first : Option Bool) (hfirst : first ≠ some true)
      (hfound : ∀ setting ∈ found, truth setting.value = some false) :
      ∃ bare, found.foldlM (fun _ setting ↦ (truth setting.value).map some) first = some bare ∧
        bare ≠ some true := by
    induction found generalizing first with
    | nil => exact ⟨first, rfl, hfirst⟩
    | cons setting found ih =>
      obtain ⟨hsetting, hfound⟩ := List.forall_mem_cons.mp hfound
      rw [List.foldlM_cons, hsetting]
      exact ih (some false) nofun hfound
  refine hfold _ none nofun fun setting hmem ↦ ?_
  obtain ⟨hread, hname⟩ := List.mem_filter.mp hmem
  exact h setting hread (of_decide_eq_true hname)

end Plain

/-- A directory with a `.git` directory in it. -/
def checkout : Files where
  node
    | [] | ["r"] | [".git", "r"] | ["refs", ".git", "r"] | ["objects", ".git", "r"] => some .directory
    | ["HEAD", ".git", "r"] | ["config", ".git", "r"] => some .file
    | _ => none
  root := rfl
  rooted name place h := by
    split at h <;> simp_all
  limit := 40
  cwd := []
  stands := rfl

/-- The directory, with a text as its configuration. -/
def configured (text : Text) : Disk where
  fs := checkout
  text place := if place = ["config", ".git", "r"] then some text else some "ref: refs/heads/main\n".toList
  utf8 _ := true
  pointer _ := none
  refused _ _ := false
  climbs _ := true
  isSet _ := false

/-- The layout of the directory, of one kind. -/
def laid (kind : Kind) : Layout := ⟨kind, [".git", "r"], [".git", "r"]⟩

end Nodal.Git.Shape
