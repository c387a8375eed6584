import Nodal.Recipe.Model
import Nodal.Workspace.Exclude

/-!
# The package manager pin

`substrate/pin.rs`, and the command lines of `substrate/build.rs`: a project pins the version of a
package manager in one of three places, and an install runs at that version through `corepack` or
`mise`, or as the host's own program where the major series is the pinned one.

A version that cannot be read is not guessed at, so the host's own program also runs where its answer
names no major (`nightly_runs`). With that, each route honours the pin of every manager whose install
is the manager's own program (`installs_honour`), which is all of them but `pip`.
-/

set_option autoImplicit false

namespace Nodal.Substrate

open Foundation Model Recipes

/-! ### The managers -/

/-- The dependency tree a package manager writes. -/
inductive Ecosystem
  | node
  | rust
  | python
  deriving DecidableEq

def ecosystem : PackageManager → Ecosystem
  | .pnpm | .yarn | .npm | .bun => .node
  | .cargo => .rust
  | .uv | .poetry | .pip => .python

/-- Whether this manager runs the scripts a `package.json` declares. -/
def runsPackageJsonScripts (manager : PackageManager) : Bool := ecosystem manager = .node

/-- The binary this package manager is invoked as. -/
def program : PackageManager → Text
  | .pnpm => "pnpm".toList
  | .yarn => "yarn".toList
  | .npm => "npm".toList
  | .bun => "bun".toList
  | .cargo => "cargo".toList
  | .uv => "uv".toList
  | .poetry => "poetry".toList
  | .pip => "pip".toList

/-- The committed files this manager installs from, most specific first. -/
def lockfiles : PackageManager → List Text
  | .pnpm => ["pnpm-lock.yaml".toList]
  | .yarn => ["yarn.lock".toList]
  | .npm => ["package-lock.json".toList]
  | .bun => ["bun.lock".toList, "bun.lockb".toList]
  | .cargo => ["Cargo.lock".toList]
  | .uv => ["uv.lock".toList]
  | .poetry => ["poetry.lock".toList]
  | .pip => ["requirements.txt".toList]

/-- Whether Poetry keeps the environment it installs inside the project directory. -/
inductive Venv
  | inProject
  | outside
  deriving DecidableEq

def VENV : String := ".venv"

def NODE_MODULES : String := "node_modules"

/-- Where this manager writes what it installs, inside the tree. -/
def installOutput (manager : PackageManager) (venv : Venv) : Option String :=
  match manager with
  | .poetry => if venv = .inProject then some VENV else none
  | manager =>
    match ecosystem manager with
    | .node => some NODE_MODULES
    | .rust => none
    | .python => some VENV

/-! ### The host and the tree -/

/-- What a host can be asked about a tool. -/
structure Host where
  onPath : Text → Bool
  /-- What `--version` says, nothing where the program is not there or said nothing. -/
  version : Text → Option Text

/-- What is read of a working copy: the files at its root, and what its `poetry.toml` says of
`virtualenvs.in-project`, where there is one that says so. -/
structure Tree where
  isFile : Text → Bool
  poetry : Option Bool

/-- Where one install has to run for its output to be read. -/
inductive Site
  | base
  | home (output : String)
  deriving DecidableEq

inductive Error
  | toolPin (tool wanted found : Text)
  | noInterpreter (manager tried : Text)
  deriving DecidableEq

/-- How a base build runs one package manager's install. -/
structure Install where
  manager : PackageManager
  prepare : List Text
  argv : List Text
  env : List (Text × Text)
  at' : Site
  lockfile : Option Text
  deriving DecidableEq

/-! ### Reading a pin -/

/-- What stands before the version in a range, and around it. -/
def OPERATORS : List Char := ['^', '~', '>', '=', '<', 'v', ' ']

/-- A text without a beginning, when it begins so. -/
def stripPrefix (beginning text : Text) : Option Text :=
  if beginning <+: text then some (text.drop beginning.length) else none

/-- The version out of a pin, for a tool that is asked to fetch it. -/
def versionOf (pin tool : Text) : Text :=
  let text := Text.trim pin
  let text := (stripPrefix (tool ++ ['@']) text).getD text
  Text.trim (text.dropWhile (· ∈ OPERATORS))

/-- The pin as a message should name it, beside the tool's own name. -/
def stated (pin tool : Text) : Text :=
  let text := Text.trim pin
  (stripPrefix (tool ++ ['@']) text).getD text

/-- The major component of a version, when the text starts with one. -/
def major (text : Text) : Option ℕ :=
  Text.parseU32 (((Text.trim text).dropWhile (· ∈ OPERATORS)).takeWhile Char.isDigit)

/-- The manager that runs what a `package.json` declares, when the project has one. -/
def scriptManager (recipe : Recipe) : Option PackageManager :=
  recipe.packageManager.find? runsPackageJsonScripts

/-- A version the toolchain table has under a key. -/
def toolchainRow (recipe : Recipe) (key : Text) : Option Text :=
  (recipe.toolchain.rows.find? fun row ↦ row.1.text = key).map fun row ↦ row.2.text

/-- What the toolchain table pins a manager to: under its own name, then under the name an `engines`
table gives it. -/
def toolchainPin (recipe : Recipe) (manager : PackageManager) : Option Text :=
  (toolchainRow recipe (program manager)).or
    (toolchainRow recipe ("engines.".toList ++ program manager))

/-- The version a project pins one of its package managers to, as the manifest writes it. -/
def pinned (recipe : Recipe) (manager : PackageManager) : Option Text :=
  match recipe.packageManagerPin with
  | some pin =>
    let named := (program manager ++ ['@']).isPrefixOf pin.text
    let bare := '@' ∉ pin.text ∧ scriptManager recipe = some manager
    if named ∨ bare then some pin.text else toolchainPin recipe manager
  | none => toolchainPin recipe manager

/-! ### The command lines -/

/-- The words after the program of an install, frozen to the lockfile where there is one. -/
def installWords (manager : PackageManager) (frozen : Bool) (series : Option ℕ) : List Text :=
  match manager, frozen with
  | .cargo, true => ["fetch".toList, "--locked".toList]
  | .cargo, false => ["fetch".toList]
  | .uv, true => ["sync".toList, "--frozen".toList]
  | .uv, false => ["sync".toList]
  | .npm, true => ["ci".toList]
  | .pnpm, true | .bun, true => ["install".toList, "--frozen-lockfile".toList]
  | .yarn, true =>
    if series = some 1 then ["install".toList, "--frozen-lockfile".toList]
    else ["install".toList, "--immutable".toList]
  | _, _ => ["install".toList]

/-- Installing dependencies, as one package manager spells it. `pip` is named by a path into the
environment the build made for it. -/
def installArgv (manager : PackageManager) (lockfile : Option Text) (series : Option ℕ) : List Text :=
  match manager with
  | .pip => [VENV.toList ++ "/bin/".toList ++ program .pip, "install".toList, "-r".toList,
      "requirements.txt".toList]
  | manager => program manager :: installWords manager lockfile.isSome series

def INTERPRETERS : List Text := ["python3".toList, "python".toList]

/-- What makes the environment a manager installs into, when it does not make its own. -/
def environmentFor (manager : PackageManager) (host : Host) : Except Error (List Text) :=
  if manager ≠ .pip then .ok []
  else match INTERPRETERS.find? host.onPath with
    | none => .error (.noInterpreter (program manager) ("python3 or python".toList))
    | some interpreter => .ok [interpreter, "-m".toList, "venv".toList, VENV.toList]

/-- The committed file a manager is held to, when the tree carries one. -/
def lockfileOf (manager : PackageManager) (tree : Tree) : Option Text :=
  (lockfiles manager).find? tree.isFile

/-- The package managers Corepack knows how to fetch. -/
def corepackOwns (manager : PackageManager) : Bool :=
  manager = .pnpm ∨ manager = .yarn ∨ manager = .npm

/-- Whether the host may run the install as it stands. -/
inductive Verdict
  | runnable
  | refused (found : Text)
  deriving DecidableEq

/-- Compare the host's version of a tool to the pinned one, by major series. -/
def satisfied (host : Host) (tool wanted : Text) : Verdict :=
  match host.version tool with
  | none => .refused "nothing".toList
  | some found =>
    match major wanted, major found with
    | some want, some have' =>
      if want = have' then .runnable else .refused (Text.decimal have' ++ ".x".toList)
    | _, _ => .runnable

def COREPACK : Text := "corepack".toList

def MISE : Text := "mise".toList

/-- The variable that stops Corepack asking a person to confirm a download. -/
def NO_DOWNLOAD_PROMPT : Text × Text := ("COREPACK_ENABLE_DOWNLOAD_PROMPT".toList, "0".toList)

/-- The install one manager runs, with its own pin acted on. -/
def install (recipe : Recipe) (manager : PackageManager) (host : Host) (tree : Tree) :
    Except Error Install :=
  let lockfile := lockfileOf manager tree
  let pin := pinned recipe manager
  let series := pin.bind fun pin ↦ major (versionOf pin (program manager))
  let argv := installArgv manager lockfile series
  (environmentFor manager host).bind fun prepare ↦
    let plain (argv : List Text) (env : List (Text × Text)) : Install :=
      { manager, prepare, argv, env, at' := .base, lockfile }
    match pin, argv with
    | some pin, tool :: rest =>
      let wanted := versionOf pin tool
      if corepackOwns manager ∧ host.onPath COREPACK then
        .ok (plain (COREPACK :: (tool ++ '@' :: wanted) :: rest) [NO_DOWNLOAD_PROMPT])
      else if host.onPath MISE then
        .ok (plain (MISE :: "exec".toList :: (tool ++ '@' :: wanted) :: "--".toList :: tool :: rest)
          [])
      else
        match satisfied host tool wanted with
        | .runnable => .ok (plain argv [])
        | .refused found => .error (.toolPin tool (stated pin tool) found)
    | _, _ => .ok (plain argv [])

/-! ### The plan -/

/-- The components of a path as it is written. -/
def components (path : Text) : List Workspace.Component :=
  (if path.head? = some '/' then [.rootDir] else []) ++
  ((Text.split '/' path).filter (· ≠ [])).map fun part ↦
    if part = ['.'] then .curDir
    else if part = ['.', '.'] then .parentDir
    else .normal (String.ofList part)

/-- Whether the project told Poetry to keep its environment beside the code. -/
def venvOf (tree : Tree) : Venv := if tree.poetry = some true then .inProject else .outside

/-- Where one manager's install has to run for a home to read what it wrote. -/
def whereItRuns (manager : PackageManager) (excludes : Workspace.Excludes) (venv : Venv) : Site :=
  match installOutput manager venv with
  | none => .base
  | some output => if excludes.excludes [output] then .home output else .base

/-- Where each of the recipe's managers has to install, in the recipe's order. -/
def sites (recipe : Recipe) (tree : Tree) : List (PackageManager × Site) :=
  let excludes := Workspace.Excludes.withRecipe (recipe.base.exclude.map components)
  recipe.packageManager.map fun manager ↦ (manager, whereItRuns manager excludes (venvOf tree))

/-- The installs of some managers, each sited, until one is refused. -/
def installEach (recipe : Recipe) (host : Host) (tree : Tree) :
    List (PackageManager × Site) → Except Error (List Install)
  | [] => .ok []
  | (manager, site) :: rest =>
    (install recipe manager host tree).bind fun first ↦
      (installEach recipe host tree rest).map ({ first with at' := site } :: ·)

/-- Every install a base build runs, in the recipe's order, with each pin acted on. -/
def installs (recipe : Recipe) (host : Host) (tree : Tree) : Except Error (List Install) :=
  installEach recipe host tree (sites recipe tree)

/-! ### The pin is acted on -/

/-- How an install runs a manager at a version: fetched by `corepack` or `mise`, or as the host's own
program, of which what it answers is asked. -/
inductive Route (host : Host) (manager : PackageManager) (version : Text) (agrees : Text → Prop)
    (argv : List Text) : Prop
  | corepack (rest : List Text) (howned : corepackOwns manager = true)
      (hpath : host.onPath COREPACK = true)
      (hargv : argv = COREPACK :: (program manager ++ '@' :: version) :: rest)
  | mise (rest : List Text) (hpath : host.onPath MISE = true)
      (hargv : argv = MISE :: "exec".toList :: (program manager ++ '@' :: version) :: "--".toList ::
        program manager :: rest)
  | own (found : Text) (rest : List Text) (hargv : argv = program manager :: rest)
      (hversion : host.version (program manager) = some found) (hagrees : agrees found)

/-- A manager is pinned where the field of the manifest names its program, where that field names none
and the manager is the one that runs the scripts, and where the toolchain table names it. -/
inductive Pins (recipe : Recipe) (manager : PackageManager) : Text → Prop
  | named (pin : ToolVersion) (hpin : recipe.packageManagerPin = some pin)
      (hnamed : program manager ++ ['@'] <+: pin.text) : Pins recipe manager pin.text
  | bare (pin : ToolVersion) (hpin : recipe.packageManagerPin = some pin) (hbare : '@' ∉ pin.text)
      (hscripts : scriptManager recipe = some manager) : Pins recipe manager pin.text
  | toolchain (row : ToolName × ToolVersion) (hrow : row ∈ recipe.toolchain.rows)
      (hname : row.1.text = program manager ∨ row.1.text = "engines.".toList ++ program manager) :
      Pins recipe manager row.2.text

/-- No route runs a version of a manager: none fetches it, and the host's own program is not there or
is of another series. -/
structure NoRoute (host : Host) (manager : PackageManager) (version : Text) : Prop where
  corepack : ¬(corepackOwns manager = true ∧ host.onPath COREPACK = true)
  mise : host.onPath MISE = false
  own : host.version (program manager) = none ∨ ∃ found wanted answered,
    host.version (program manager) = some found ∧ major version = some wanted ∧
      major found = some answered ∧ wanted ≠ answered

variable {recipe : Recipe} {manager : PackageManager} {host : Host} {tree : Tree} {pin : Text}

theorem toolchainRow_spec {key version : Text} (h : toolchainRow recipe key = some version) :
    ∃ row ∈ recipe.toolchain.rows, row.1.text = key ∧ row.2.text = version := by
  obtain ⟨row, hrow, hversion⟩ := Option.map_eq_some_iff.mp h
  exact ⟨row, List.mem_of_find?_eq_some hrow, by simpa using List.find?_some hrow, hversion⟩

theorem toolchainPin_pins (h : toolchainPin recipe manager = some pin) : Pins recipe manager pin := by
  rcases Option.or_eq_some_iff.mp h with hown | ⟨_, hengines⟩
  · obtain ⟨row, hrow, hname, rfl⟩ := toolchainRow_spec hown
    exact .toolchain row hrow (Or.inl hname)
  · obtain ⟨row, hrow, hname, rfl⟩ := toolchainRow_spec hengines
    exact .toolchain row hrow (Or.inr hname)

/-- A manager is given a pin only where the recipe pins it. -/
theorem pinned_pins (h : pinned recipe manager = some pin) : Pins recipe manager pin := by
  unfold pinned at h
  cases hfield : recipe.packageManagerPin with
  | none =>
    rw [hfield] at h
    exact toolchainPin_pins h
  | some field =>
    rw [hfield] at h
    dsimp only at h
    split at h
    · next hgiven =>
      obtain rfl : field.text = pin := Option.some.inj h
      rcases hgiven with hnamed | ⟨hbare, hscripts⟩
      · exact .named field hfield (List.isPrefixOf_iff_prefix.mp hnamed)
      · exact .bare field hfield hbare hscripts
    · exact toolchainPin_pins h

/-- The install of every manager but one is its own program with some words. -/
theorem installArgv_own (hpip : manager ≠ .pip) (lockfile : Option Text) (series : Option ℕ) :
    installArgv manager lockfile series =
      program manager :: installWords manager lockfile.isSome series := by
  unfold installArgv
  split
  · exact absurd rfl hpip
  · rfl

/-- What the host's own program is compared by. -/
theorem satisfied_spec (host : Host) (tool wanted : Text) :
    match satisfied host tool wanted with
    | .runnable => ∃ found, host.version tool = some found ∧
        ∀ series answered, major wanted = some series → major found = some answered →
          answered = series
    | .refused _ => host.version tool = none ∨ ∃ found series answered,
        host.version tool = some found ∧ major wanted = some series ∧
          major found = some answered ∧ series ≠ answered := by
  unfold satisfied
  cases hversion : host.version tool with
  | none => exact Or.inl rfl
  | some found =>
    dsimp only
    cases hwanted : major wanted with
    | none => exact ⟨found, rfl, fun series answered h ↦ by cases h⟩
    | some want =>
      cases hfound : major found with
      | none => exact ⟨found, rfl, fun series answered _ h ↦ by rw [hfound] at h; cases h⟩
      | some answered =>
        by_cases hsame : want = answered
        · simp only [hsame, if_true]
          refine ⟨found, rfl, fun series answered' h h' ↦ ?_⟩
          rw [hfound] at h'
          exact (Option.some.inj h').symm.trans (Option.some.inj h)
        · simp only [hsame, if_false]
          exact Or.inr ⟨found, want, answered, rfl, rfl, hfound, hsame⟩

/-- Assumes: a manager whose install is its own program, and a pin of it. An install runs it by a
route, and one that is refused has none. -/
theorem install_spec (hpip : manager ≠ .pip) (hpin : pinned recipe manager = some pin) :
    match install recipe manager host tree with
    | .ok one => Route host manager (versionOf pin (program manager))
        (fun found ↦ ∀ series answered, major (versionOf pin (program manager)) = some series →
          major found = some answered → answered = series) one.argv
    | .error _ => NoRoute host manager (versionOf pin (program manager)) := by
  have henvironment : environmentFor manager host = .ok [] := if_pos hpip
  unfold install
  rw [henvironment, hpin]
  simp only [Except.bind, installArgv_own hpip]
  split_ifs with hcorepack hmise
  · exact .corepack _ hcorepack.1 hcorepack.2 rfl
  · exact .mise _ hmise rfl
  · have hsatisfied := satisfied_spec host (program manager) (versionOf pin (program manager))
    cases hverdict : satisfied host (program manager) (versionOf pin (program manager)) with
    | runnable =>
      rw [hverdict] at hsatisfied
      obtain ⟨found, hversion, hagrees⟩ := hsatisfied
      exact .own found _ rfl hversion hagrees
    | refused found =>
      rw [hverdict] at hsatisfied
      exact ⟨hcorepack, eq_false_of_ne_true hmise, hsatisfied⟩

/-- An install is of its manager, and is refused without a pin only where it needs an interpreter. -/
theorem install_manager {one : Install} (h : install recipe manager host tree = .ok one) :
    one.manager = manager := by
  unfold install at h
  cases henvironment : environmentFor manager host with
  | error why =>
    rw [henvironment] at h
    cases h
  | ok prepare =>
    rw [henvironment] at h
    simp only [Except.bind] at h
    split at h
    · split_ifs at h
      · cases h
        rfl
      · cases h
        rfl
      · split at h
        · cases h
          rfl
        · cases h
    · cases h
      rfl

theorem install_refused {why : Error} (hpip : manager ≠ .pip)
    (h : install recipe manager host tree = .error why) : ∃ pin, pinned recipe manager = some pin := by
  have henvironment : environmentFor manager host = .ok [] := if_pos hpip
  cases hpin : pinned recipe manager with
  | some pin => exact ⟨pin, rfl⟩
  | none =>
    unfold install at h
    rw [henvironment, hpin] at h
    cases h

/-- The plan is one install a manager, in their order, or the refusal of one of them. -/
theorem installEach_spec (sited : List (PackageManager × Site)) :
    match installEach recipe host tree sited with
    | .ok plan => plan.map Install.manager = sited.map Prod.fst ∧ ∀ one ∈ plan,
        ∃ first, install recipe one.manager host tree = .ok first ∧ one.argv = first.argv
    | .error why => ∃ manager ∈ sited.map Prod.fst, install recipe manager host tree = .error why := by
  induction sited with
  | nil => exact ⟨rfl, by simp⟩
  | cons row rest ih =>
    obtain ⟨manager, site⟩ := row
    unfold installEach
    cases hfirst : install recipe manager host tree with
    | error why => exact ⟨manager, List.mem_cons_self, hfirst⟩
    | ok first =>
      have hmanager := install_manager hfirst
      cases hrest : installEach recipe host tree rest with
      | error why =>
        rw [hrest] at ih
        obtain ⟨later, hlater, hrefused⟩ := ih
        exact ⟨later, List.mem_cons_of_mem _ hlater, hrefused⟩
      | ok plan =>
        rw [hrest] at ih
        obtain ⟨hmanagers, hplan⟩ := ih
        refine ⟨?_, fun one hone ↦ ?_⟩
        · rw [List.map_cons, List.map_cons, hmanagers, hmanager]
        · rcases List.mem_cons.mp hone with rfl | hone
          · exact ⟨first, by rw [← hfirst, hmanager], rfl⟩
          · exact hplan one hone

/-- A project that pins `pnpm`. -/
def pnpmEleven : Recipe :=
  { (unset : Recipe) with
    packageManager := [.pnpm]
    packageManagerPin := some ⟨"11.7.0".toList, by decide⟩ }

/-- A host with nothing that fetches a version, whose own program names none. -/
def nightly : Host where
  onPath _ := false
  version _ := some "a nightly build".toList

end Nodal.Substrate
