import Nodal.Removal.Findings
import Nodal.Sweep.Rows

/-!
# What an uninstall would take away

`setup/plan.rs`, `output/view/setup.rs`: the survey, the answer it gives, and the removal of what the
answer lists. The state directory goes only where `--state` asked for it, and every managed home the
registry knows is read first.

A home Git cannot read is not a claim that it is safe: it is left out of the findings because there
is nothing to report about it. A registry that cannot be read is a note.
-/

set_option autoImplicit false

namespace Nodal.Setup

open Git (Disk Seconds)
open Locks (UnitId)
open Removal Sweep

/-! ### What is asked, and what is answered -/

/-- What an uninstall was asked to do. -/
structure Request where
  /-- Nodal's state directory. -/
  state : Path
  /-- The person's own directory, which the start-up files are under. -/
  home : Path
  stateToo : Bool
  /-- Whether a home that holds work only it has may be removed anyway. -/
  force : Bool
  project : Option Path
  deriving DecidableEq, Repr

/-- What kind of thing an item is. -/
inductive Kind
  | rcBlock
  | shim
  | state
  | claudeHooks
  | toolServer
  deriving DecidableEq, Repr

/-- One thing an uninstall would take away. -/
structure Item where
  kind : Kind
  path : Path
  detail : String
  deriving DecidableEq, Repr

/-- What an uninstall would do, or has done. -/
structure Uninstall where
  now : Seconds
  /-- Everything that would go, in the order it goes. -/
  items : List Item
  /-- The homes that hold work nothing else has. -/
  findings : List Uniqueness
  forced : Bool
  applied : Bool
  /-- What could not be read, and why. -/
  notes : List String
  deriving DecidableEq, Repr

/-- Whether the plan can run: nothing to lose, or a `--force` that accepted losing it. -/
def Uninstall.isPermitted (plan : Uninstall) : Bool :=
  plan.forced || plan.findings.isEmpty

inductive Error
  | io (path : Path) (why : String)
  | invalidValue (kind value : String)
  deriving DecidableEq, Repr

/-! ### The registry, as a survey reads it -/

/-- An open registry: its tables, and which of its statements fail. -/
structure Store where
  registry : Registry
  listFails : Option String
  unitFails : UnitId → Option String
  projectFails : ProjectId → Option String

namespace Store

variable (store : Store)

/-- Every environment, oldest first. -/
def listAll : Except String (List Environment) :=
  match store.listFails with
  | some why => .error why
  | none => .ok store.registry.environments.values

def unit (id : UnitId) : Except String (Option UnitRow) :=
  match store.unitFails id with
  | some why => .error why
  | none => .ok (store.registry.units.get? id)

def project (id : ProjectId) : Except String (Option Project) :=
  match store.projectFails id with
  | some why => .error why
  | none => .ok (store.registry.projects.get? id)

end Store

/-- The machine a survey reads. -/
structure Machine where
  disk : Disk
  now : Seconds
  isDir : Path → Bool
  isFile : Path → Bool
  /-- What opening a registry answers. -/
  opens : Path → Except String Store
  /-- The blocks, the scripts and the hooks a survey finds with its notes about them, or the start-up
  file it could not read. -/
  integration : Request → Except Error (List Item × List String)

/-- The file the registry is. -/
def registryOf (state : Path) : Path :=
  { state with names := "registry.db" :: state.names }

/-- A path as it is written out. -/
def text (path : Path) : String :=
  (if path.absolute then "/" else "") ++ "/".intercalate path.names.reverse

/-- The checkout the row of a unit leads to. A project that cannot be read is no project. -/
def rootOf (store : Store) (unit : Option UnitRow) : Option Path :=
  (unit.bind fun unit ↦ (store.project unit.projectId).toOption.join).map Project.root

/-- The managed homes of some rows that are there, each with its project's checkout. -/
def homesOf (machine : Machine) (store : Store) :
    List Environment → Except String (List (Path × Option Path))
  | [] => .ok []
  | environment :: rest =>
    if !environment.managed || !machine.isDir environment.home then homesOf machine store rest
    else do
      let unit ← store.unit environment.unitId
      let found ← homesOf machine store rest
      return (environment.home, rootOf store unit) :: found

/-- Every managed home the registry knows about. A registry that is not there is not an error. -/
def homes (machine : Machine) (state : Path) : Except String (List (Path × Option Path)) :=
  if machine.isFile (registryOf state) then do
    let store ← machine.opens (registryOf state)
    let rows ← store.listAll
    homesOf machine store rows
  else .ok []

/-! ### The survey -/

/-- What is asked of one home. -/
def asking (home : Path) (project : Option Path) : Input :=
  .refusal (text home) (project.map text) []

/-- What one home holds that exists nowhere else: nothing when it holds nothing, and nothing when it
could not be read. -/
def uniqueWork (machine : Machine) (home : Path) (project : Option Path) : Option Uniqueness :=
  match assess machine.disk (asking home project) with
  | .error _ => none
  | .ok assessment =>
    if (assessment.verdict machine.disk [] machine.now).isSafe then none
    else some ⟨text home, assessment.findings⟩

/-- A count with the word that goes with it. -/
def plural (count : ℕ) (one many : String) : String :=
  toString count ++ " " ++ (if count = 1 then one else many)

/-- What a survey says where it could not look. -/
def unlooked (why : String) : String :=
  "the registry could not be read, so no home was checked: " ++ why

/-- The state directory, and what the homes it holds say: the items, the notes and the findings. -/
def stateItem (machine : Machine) (request : Request) :
    List Item × List String × List Uniqueness :=
  if machine.isDir request.state then
    let read := homes machine request.state
    let found := read.toOption.getD []
    let notes := match read with
      | .ok _ => []
      | .error why => [unlooked why]
    ([⟨.state, request.state,
        "the registry and " ++ plural found.length "unit home" "unit homes"⟩],
      notes, found.filterMap fun home ↦ uniqueWork machine home.1 home.2)
  else ([], [], [])

/-- Read the machine and say what an uninstall would take away. -/
def survey (machine : Machine) (request : Request) : Except Error Uninstall := do
  let (items, notes) ← machine.integration request
  let (state, said, findings) :=
    if request.stateToo then stateItem machine request else ([], [], [])
  return ⟨machine.now, items ++ state, findings, request.force, false, notes ++ said⟩

/-! ### The removal -/

/-- The message a refused uninstall carries. -/
def uniquenessMessage (findings : List Uniqueness) : String :=
  plural findings.length "one home" "more than one home" ++
    " holds work that exists nowhere else; pass --force to remove it anyway (" ++
    "; ".intercalate
      (findings.map fun answer ↦ answer.home ++ ": " ++ Finding.summarise answer.findings) ++ ")"

/-- Take away the items in order, up to the first that fails: what was tried, and how it ended. -/
def takeAway (remove : Item → Except Error Unit) : List Item → List Item × Except Error Unit
  | [] => ([], .ok ())
  | item :: rest => match remove item with
    | .error error => ([item], .error error)
    | .ok _ => (item :: (takeAway remove rest).1, (takeAway remove rest).2)

/-- Take away exactly what the plan lists: what was tried, and the answer. -/
def apply (remove : Item → Except Error Unit) (tidy : Uninstall → Except Error Unit)
    (plan : Uninstall) : List Item × Except Error Uninstall :=
  if plan.isPermitted then
    let taken := takeAway remove plan.items
    (taken.1, taken.2.bind fun _ ↦ (tidy plan).map fun _ ↦ { plan with applied := true })
  else ([], .error (.invalidValue "uninstall" (uniquenessMessage plan.findings)))

/-- The segment that names one materialisation: the last eight characters of its identifier. -/
def segment (environment : EnvId) : String :=
  String.ofList (environment.toList.drop (environment.length - 8))

/-- Where one reclaimed home is put, under the segment of its project. -/
def trashed (root : Path) (project : String) (environment : EnvId) : Path :=
  { root with names := segment environment :: "trash" :: project :: root.names }

/-! ### What a permitted survey rests on -/

/-- A commit the refs of a home reach, or its `HEAD` where the reading of that answers. -/
def Reached (disk : Disk) (input : Input) (commit : Git.Oid) : Prop :=
  ∃ repository, disk.repository input.home = some repository ∧
    ∃ tip ∈ workTips repository input.work ++
        (if disk.fails input.home .revParseHead = none then repository.headCommit.toList else []),
      repository.Holds tip commit

/-- A home the registry lists as managed whose directory is there. -/
structure Listed (machine : Machine) (store : Store) (environment : Environment) : Prop where
  row : environment ∈ store.registry.environments.values
  managed : environment.managed = true
  present : machine.isDir environment.home = true

variable {machine : Machine} {request : Request} {plan : Uninstall} {store : Store}

/-- A reading that is safe is over a working tree with no work in it and commits each of which is
somewhere else. -/
theorem covered_of_safe {input : Input} {assessment : Assessment} {readAt : Seconds}
    (hassess : assess machine.disk input = .ok assessment)
    (hsafe : (assessment.verdict machine.disk [] readAt).isSafe = true) :
    Clean machine.disk input.home ∧
      ∀ commit, Reached machine.disk input commit → Covered machine.disk input commit := by
  obtain ⟨status, found, hstatus, hfound, rfl⟩ := assess_eq_ok hassess
  obtain ⟨hrefuses, hparts⟩ := safe_parts hsafe
  constructor
  · obtain ⟨repository, hrepository, rfl⟩ := Disk.runOk_eq_ok hstatus
    exact ⟨repository, hrepository,
      clean_of_working fun group hgroup ↦ hrefuses group (List.mem_append_left _ hgroup)⟩
  · intro commit hcommit
    obtain ⟨repository, hrepository, tip, htip, hholds⟩ := hcommit
    refine covered_of_tip hfound hparts hrepository ?_ hholds
    rcases List.mem_append.mp htip with hwork | hhead
    · exact workTips_subset hwork
    · split at hhead
      · next hfails => exact head_mem_tips hrepository hfails (Option.mem_toList.mp hhead)
      · exact absurd hhead List.not_mem_nil

theorem safe_of_uniqueWork {home : Path} {project : Option Path} {assessment : Assessment}
    (hnone : uniqueWork machine home project = none)
    (hassess : assess machine.disk (asking home project) = .ok assessment) :
    (assessment.verdict machine.disk [] machine.now).isSafe = true := by
  by_contra hsafe
  simp [uniqueWork, hassess, hsafe] at hnone

/-- Each listed home is among the homes a survey walks. -/
theorem mem_homesOf {rows : List Environment} {found : List (Path × Option Path)}
    {environment : Environment} (h : homesOf machine store rows = .ok found)
    (hrow : environment ∈ rows) (hmanaged : environment.managed = true)
    (hpresent : machine.isDir environment.home = true) :
    ∃ unit, store.unit environment.unitId = .ok unit ∧
      (environment.home, rootOf store unit) ∈ found := by
  induction rows generalizing found with
  | nil => exact absurd hrow List.not_mem_nil
  | cons row rest ih =>
    unfold homesOf at h
    split at h
    · next hskipped =>
      rcases List.mem_cons.mp hrow with rfl | hrest
      · simp [hmanaged, hpresent] at hskipped
      · exact ih h hrest
    · obtain ⟨unit, hunit, h⟩ := Git.bind_eq_ok h
      obtain ⟨others, hothers, h⟩ := Git.bind_eq_ok h
      cases h
      rcases List.mem_cons.mp hrow with rfl | hrest
      · exact ⟨unit, hunit, List.mem_cons_self⟩
      · obtain ⟨other, hother, hmem⟩ := ih hothers hrest
        exact ⟨other, hother, List.mem_cons_of_mem _ hmem⟩

/-- What a survey with `--state` adds is what the state directory and its homes say. -/
theorem survey_state (hsurvey : survey machine request = .ok plan)
    (hstate : request.stateToo = true) : plan.forced = request.force ∧
      plan.findings = (stateItem machine request).2.2 ∧
      (stateItem machine request).2.1 ⊆ plan.notes := by
  unfold survey at hsurvey
  obtain ⟨⟨items, notes⟩, _, hplan⟩ := Git.bind_eq_ok hsurvey
  simp only [hstate, if_true] at hplan
  cases hplan
  exact ⟨rfl, rfl, List.subset_append_right _ _⟩

/-- A finding the survey reports has something to say. -/
theorem finding_named {home : Path} {project : Option Path} {answer : Uniqueness}
    (h : uniqueWork machine home project = some answer) : answer.findings ≠ [] := by
  unfold uniqueWork at h
  split at h
  · cases h
  · next assessment hassess =>
    split at h
    · cases h
    · next hsafe =>
      obtain rfl := Option.some.inj h
      exact fun hnil ↦ hsafe ((refusal_safe_iff hassess).mpr hnil)

/-- A survey that takes the state directory and was not forced is permitted only where each managed
home it could read carries no work and has each of its commits somewhere else; where the registry
could not be read, a note says that no home was checked. A plan that is not permitted takes nothing
away, and the refusal names a finding of each home it is over. -/
theorem permitted_covered (hsurvey : survey machine request = .ok plan)
    (hstate : request.stateToo = true) (hforce : request.force = false)
    (hdir : machine.isDir request.state = true) :
    (plan.isPermitted = true →
      machine.isFile (registryOf request.state) = false ∨
      (∃ why, homes machine request.state = .error why ∧ unlooked why ∈ plan.notes) ∨
      ∃ store, machine.opens (registryOf request.state) = .ok store ∧
        ∀ environment, Listed machine store environment →
          ∃ unit, store.unit environment.unitId = .ok unit ∧
            ∀ assessment,
              assess machine.disk (asking environment.home (rootOf store unit)) = .ok assessment →
              Clean machine.disk (text environment.home) ∧
                ∀ commit,
                  Reached machine.disk (asking environment.home (rootOf store unit)) commit →
                  Covered machine.disk (asking environment.home (rootOf store unit)) commit) ∧
    (plan.isPermitted = false → ∀ remove tidy,
      apply remove tidy plan =
        ([], .error (.invalidValue "uninstall" (uniquenessMessage plan.findings))) ∧
      ∀ answer ∈ plan.findings, answer.findings ≠ []) := by
  obtain ⟨hforced, hfindings, hnotes⟩ := survey_state hsurvey hstate
  rw [stateItem, if_pos hdir] at hfindings hnotes
  constructor
  · intro hpermitted
    have hnone : plan.findings = [] := by simpa [Uninstall.isPermitted, hforced, hforce] using hpermitted
    rw [hfindings] at hnone
    cases hfile : machine.isFile (registryOf request.state) with
    | false => exact Or.inl rfl
    | true =>
      right
      cases hread : homes machine request.state with
      | error why =>
        refine Or.inl ⟨why, rfl, hnotes ?_⟩
        simp [hread]
      | ok found =>
        right
        simp only [hread, Except.toOption, Option.getD_some] at hnone
        simp only [homes, hfile, if_true] at hread
        obtain ⟨store, hopen, hread⟩ := Git.bind_eq_ok hread
        obtain ⟨rows, hrows, hread⟩ := Git.bind_eq_ok hread
        refine ⟨store, hopen, fun environment hlisted ↦ ?_⟩
        have hrow : environment ∈ rows := by
          unfold Store.listAll at hrows
          split at hrows
          · cases hrows
          · cases hrows
            exact hlisted.row
        obtain ⟨unit, hunit, hmem⟩ := mem_homesOf hread hrow hlisted.managed hlisted.present
        refine ⟨unit, hunit, fun assessment hassess ↦ ?_⟩
        have hclear := List.filterMap_eq_nil_iff.mp hnone _ hmem
        exact covered_of_safe hassess (safe_of_uniqueWork hclear hassess)
  · intro hpermitted remove tidy
    refine ⟨by simp [apply, hpermitted], fun answer hanswer ↦ ?_⟩
    rw [hfindings] at hanswer
    obtain ⟨home, _, hfound⟩ := List.mem_filterMap.mp hanswer
    exact finding_named hfound

/-! ### Homes nobody read -/

private def webState : Path := ⟨true, ["state"]⟩

private def webHome : Environment :=
  ⟨"e1", "u1", 1, ⟨true, ["e1", "e", "web", "state"]⟩, true, .stopped⟩

/-- A home that was reclaimed: what is left of it is in the trash. -/
private def webReclaimed : Environment :=
  ⟨"e0", "u0", 1, ⟨true, ["e0", "e", "web", "state"]⟩, true, .absent⟩

/-- One project, a unit of it with its home, and a unit that was reclaimed. -/
private def webRegistry : Registry where
  projects := ⟨[("p1", ⟨"p1", "web", ⟨true, ["project"]⟩, none⟩)], by simp⟩
  units := ⟨[("u0", ⟨"u0", "p1", "zeroth", .archived, .epoch⟩),
    ("u1", ⟨"u1", "p1", "first", .opened, .epoch⟩)], by decide⟩
  environments := ⟨[("e0", webReclaimed), ("e1", webHome)], by decide⟩
  projects_keyed := by decide
  units_keyed := by decide
  environments_keyed := by decide
  root_unique := by decide
  unit_project := by decide
  unit_slug := by decide
  environment_attempt := by decide

/-- A repository of one branch at one commit. -/
private def single (commit : ℕ) : Git.Repository fun _ ↦ [] :=
  .ordinary [⟨["refs", "heads", "main"], ⟨commit⟩⟩] (.symbolic ["refs", "heads", "main"]) [⟨commit⟩]
    (by simp [Foundation.Ancestry.NewestFirst])

/-- The home holds one commit, the project's checkout one, and the reclaimed home a third. -/
private def webDisk (kept : ℕ) (fails : Git.Path → Git.Command → Option Git.Failure) : Disk :=
  .ordinaries (fun _ ↦ []) (fun _ ↦ [])
    (fun path ↦
      if path = "/state/web/e/e1" then some (single 1)
      else if path = "/project" then some (single kept)
      else if path = "/state/web/trash/e0" then some (single 3)
      else none) fails

private def webStore : Store := ⟨webRegistry, none, fun _ ↦ none, fun _ ↦ none⟩

private def webMachine (disk : Disk) : Machine where
  disk
  now := 0
  isDir path := path ≠ webReclaimed.home
  isFile _ := true
  opens _ := .ok webStore
  integration _ := .ok ([], [])

private def webRequest : Request := ⟨webState, ⟨true, ["person"]⟩, true, false, none⟩

/-- `git status` does not run in the home. -/
private def noStatus (path : Git.Path) (command : Git.Command) : Option Git.Failure :=
  if path = "/state/web/e/e1" ∧ command = .status then some .exit else none

/-- What the survey of the machine answers where no home refuses. -/
private def webPlan : Uninstall :=
  ⟨0, [⟨.state, webState, "the registry and 1 unit home"⟩], [], false, false, []⟩

/-- What is asked of the home. -/
private def webAsking : Input :=
  asking webHome.home (some ⟨true, ["project"]⟩)

theorem permitted_covered_web : Clean (webDisk 1 fun _ _ ↦ none) "/state/web/e/e1" ∧
    ∀ commit, Reached (webDisk 1 fun _ _ ↦ none) webAsking commit →
      Covered (webDisk 1 fun _ _ ↦ none) webAsking commit := by
  have hsurvey : survey (webMachine (webDisk 1 fun _ _ ↦ none)) webRequest = .ok webPlan := by
    decide +kernel
  have hanswers : (assess (webDisk 1 fun _ _ ↦ none) webAsking).toOption.any (fun _ ↦ true) = true := by
    decide +kernel
  obtain ⟨assessment, hassess, _⟩ := Git.answered_of_any hanswers
  obtain ⟨hpermits, _⟩ := permitted_covered hsurvey rfl rfl rfl
  rcases hpermits rfl with hfile | ⟨why, hread, _⟩ | ⟨store, hopen, hcovered⟩
  · exact absurd hfile (by decide)
  · have hreads : (homes (webMachine (webDisk 1 fun _ _ ↦ none)) webRequest.state).toOption.isSome =
        true := by decide +kernel
    rw [hread] at hreads
    cases hreads
  · cases hopen
    obtain ⟨unit, hunit, hsafe⟩ := hcovered webHome ⟨by decide, rfl, by decide⟩
    have hroot : unit = webRegistry.units.get? "u1" := (Except.ok.inj hunit).symm
    subst hroot
    exact hsafe assessment hassess

/-- A commit the checkout does not have is nowhere but in the home that has it. -/
private theorem web_uncovered {home : Path} {commit : Git.Oid} (hcommit : commit ≠ ⟨2⟩)
    (hrelated : relation (webDisk 2 noStatus)
      ((named (webDisk 2 noStatus) (text home)).map Origin.name)
      (Checkout.read (webDisk 2 noStatus) "/project") ∉ [.isTheRemote, .sameRemote]) :
    ¬Covered (webDisk 2 noStatus) (asking home (some ⟨true, ["project"]⟩)) commit := by
  have hchecked : (webDisk 2 noStatus).repository "/project" = some (single 2) := rfl
  have hunreached {tip : Git.Oid} (htip : tip = ⟨2⟩)
      (hreach : Foundation.Ancestry.Descends (webDisk 2 noStatus).history tip commit) : False := by
    rcases Relation.ReflTransGen.cases_head hreach with heq | ⟨next, hparent, _⟩
    · exact hcommit (heq.symm.trans htip)
    · exact absurd hparent List.not_mem_nil
  rintro (⟨checkout, repository, hcheckout, hrepository, tip, htip, hreach⟩ |
    ⟨checkout, tip, hcheckout, ⟨_, _, ⟨hremote, _⟩ | ⟨hremote, _⟩⟩, _⟩ |
    ⟨store, hstore, _, repository, hrepository, tip, htip, hholds⟩)
  · cases hcheckout
    cases hchecked.symm.trans hrepository
    refine hunreached ?_ hreach
    simpa [single, Git.Repository.ownRefs, Git.Repository.ordinary, Git.startsWith,
      Git.stripPrefix, Git.TRACKING, List.isPrefixOf] using htip
  · cases hcheckout
    exact hrelated (hremote ▸ List.mem_cons_self)
  · cases hcheckout
    exact hrelated (hremote ▸ List.mem_cons_of_mem _ List.mem_cons_self)
  · obtain rfl := List.mem_singleton.mp hstore
    cases hchecked.symm.trans hrepository
    exact hunreached (List.mem_singleton.mp hholds.1) hholds.descends

/-- A survey is permitted over a home in which `git status` fails and over a reclaimed home it does
not look for, and the only commit of each is nowhere else. -/
theorem permitted_over_unread : ∃ plan,
    survey (webMachine (webDisk 2 noStatus)) webRequest = .ok plan ∧
      webRequest.stateToo = true ∧ webRequest.force = false ∧ plan.isPermitted = true ∧
      (∃ item ∈ plan.items, item.kind = .state ∧ item.path = webState) ∧
      Listed (webMachine (webDisk 2 noStatus)) webStore webHome ∧
      webState ∈ webHome.home.ancestors ∧
      assess (webDisk 2 noStatus) webAsking = .error .exit ∧
      (∃ commit, InHome (webDisk 2 noStatus) webAsking commit ∧
        ¬Covered (webDisk 2 noStatus) webAsking commit) ∧
      webReclaimed ∈ webStore.registry.environments.values ∧
      ∃ commit,
        InHome (webDisk 2 noStatus)
          (asking (trashed webState "web" webReclaimed.id) (some ⟨true, ["project"]⟩)) commit ∧
        ¬Covered (webDisk 2 noStatus)
          (asking (trashed webState "web" webReclaimed.id) (some ⟨true, ["project"]⟩)) commit := by
  refine ⟨webPlan, by decide +kernel, rfl, rfl, rfl, ⟨_, List.mem_singleton_self _, rfl, rfl⟩,
    ⟨by decide, rfl, by decide⟩, by decide, by decide +kernel, ⟨⟨1⟩, ?_⟩, by decide, ⟨3⟩, ?_⟩
  · refine ⟨⟨_, rfl, ⟨1⟩, by decide +kernel, by decide +kernel, Relation.ReflTransGen.refl⟩, ?_⟩
    exact web_uncovered (by decide) (by decide +kernel)
  · have htext : text (trashed webState "web" webReclaimed.id) = "/state/web/trash/e0" := by
      decide +kernel
    refine ⟨⟨single 3, congrArg (webDisk 2 noStatus).repository htext, ⟨3⟩, by decide +kernel, by decide +kernel,
      Relation.ReflTransGen.refl⟩, ?_⟩
    exact web_uncovered (by decide) (by decide +kernel)

end Nodal.Setup
