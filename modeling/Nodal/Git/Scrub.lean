import Nodal.Git.Layout
import Nodal.Git.Repository

/-!
# Making a clone a repository of its own

`git/scrub.rs`: the registrations of worktrees are removed, `HEAD` is pointed at a branch, automatic garbage
collection is turned off, and a hooks path that leads outside is unset. That path is read from all the
configuration and unset in the repository's own file alone, and it is looked at only where it is absolute. So
a clone is scrubbed exactly when the path that is left in force is one that is kept, and the hooks there are
inside (`scrubbed_iff`).

The files are what is there beside the registrations and the configuration.
-/

set_option autoImplicit false

namespace Nodal.Git.Scrub

open Foundation Foundation.Places Shape

/-! ### A repository and its machine -/

/-- A Git operation that is under way. -/
inductive State
  | merge
  | rebase
  | cherryPick
  | revert
  | bisect
  | applyPatch
  | indexLock
  deriving DecidableEq

/-- Marker paths, relative to the Git directory, in the order they are reported. -/
def MARKERS : List (State × String) :=
  [(.merge, "MERGE_HEAD"), (.rebase, "rebase-merge"), (.rebase, "rebase-apply/rebasing"),
    (.applyPatch, "rebase-apply/applying"), (.cherryPick, "CHERRY_PICK_HEAD"), (.revert, "REVERT_HEAD"),
    (.bisect, "BISECT_LOG"), (.indexLock, "index.lock")]

/-- The states whose marker is there, without repeats. -/
def inspect (present : String → Bool) : List State :=
  MARKERS.foldl
    (fun states row ↦ if present row.2 && !states.contains row.1 then states ++ [row.1] else states) []

/-- A path that is configured: one that Git writes out, `~/hooks` and `~name/hooks`, or one as it is. -/
inductive Value
  | expanded (user : String) (parts : List Part)
  | path (route : Route)
  deriving DecidableEq

/-- The values one configuration file gives to each of two names, in order. -/
structure Settings where
  gcAuto : List Text := []
  hooksPath : List Value := []

structure Repo where
  kind : Kind
  /-- Whether a path is there under the Git directory. -/
  present : String → Bool
  /-- The directory of worktree registrations, and the names there. -/
  worktrees : Option (List String)
  refs : List Ref
  head : Head
  own : Settings

structure Machine where
  fs : Files
  /-- The place of the repository. -/
  root : Place
  /-- Where the directory of a user is. -/
  directory : String → Place
  system : Settings
  person : Settings

namespace Machine

variable (machine : Machine) (repo : Repo)

/-- The values that are held outside the repository, in the order Git reads them. -/
def elsewhere {α : Type} (name : Settings → List α) : List α := name machine.system ++ name machine.person

/-- Read one config value: the last one of all the files. -/
def config {α : Type} (name : Settings → List α) : Option α :=
  (machine.elsewhere name ++ name repo.own).getLast?

/-- Whether a path resolves inside the repository. What Git writes out begins with no slash. -/
def contains : Value → Bool
  | .expanded _ _ => true
  | .path route =>
    if route.start ≠ .root then true
    else match machine.fs.canonicalize route with
      | some place => machine.root.isSuffixOf place
      | none => (machine.root.map Part.name).isSuffixOf route.parts

end Machine

/-! ### The scrub -/

inductive Error
  | gitLinkedWorktree
  | gitInProgress (states : List State)
  | gitUnknownBranch (branch : RefName)
  | git
  deriving DecidableEq

/-- What the scrub should leave `HEAD` pointing at. -/
structure Options where
  headBranch : Option RefName := none

/-- What the scrub changed. -/
structure Report where
  worktreesRemoved : Bool := false
  headSet : Option RefName := none
  gcAutoDisabled : Bool := false
  hooksPathCleared : Option Value := none
  deriving DecidableEq

variable (machine : Machine)

/-- Remove the worktree registrations the clone inherited from its source. -/
def removeWorktrees (repo : Repo) : Bool × Repo :=
  if repo.worktrees.isNone then (false, repo) else (true, { repo with worktrees := none })

/-- Point `HEAD` at the unit's branch, which must already exist. -/
def setHead (branch : Option RefName) (repo : Repo) : Except Error (Option RefName × Repo) :=
  match branch with
  | none => .ok (none, repo)
  | some branch =>
    if HEADS ++ branch ∉ repo.refs.map Ref.name then .error (.gitUnknownBranch branch)
    else if repo.head = .symbolic (HEADS ++ branch) then .ok (none, repo)
    else .ok (some branch, { repo with head := .symbolic (HEADS ++ branch) })

/-- Turn automatic garbage collection off. `git config` does not write one value over several. -/
def disableGc (repo : Repo) : Except Error (Bool × Repo) :=
  if machine.config repo Settings.gcAuto = some "0".toList then .ok (false, repo)
  else if 1 < repo.own.gcAuto.length then .error .git
  else .ok (true, { repo with own := { repo.own with gcAuto := ["0".toList] } })

/-- Drop a `core.hooksPath` that points outside this repository. `git config --unset-all` fails where the
repository's own file has none. -/
def clearOutsideHooksPath (repo : Repo) : Except Error (Option Value × Repo) :=
  match machine.config repo Settings.hooksPath with
  | none => .ok (none, repo)
  | some configured =>
    if machine.contains configured then .ok (none, repo)
    else if repo.own.hooksPath = [] then .error .git
    else .ok (some configured, { repo with own := { repo.own with hooksPath := [] } })

/-- Scrub inherited Git state out of a freshly cloned unit repository. -/
def apply (options : Options) (repo : Repo) : Except Error (Report × Repo) := do
  if repo.kind ≠ .main then throw .gitLinkedWorktree
  if inspect repo.present ≠ [] then throw (.gitInProgress (inspect repo.present))
  let (worktreesRemoved, repo) := removeWorktrees repo
  let (headSet, repo) ← setHead options.headBranch repo
  let (gcAutoDisabled, repo) ← disableGc machine repo
  let (hooksPathCleared, repo) ← clearOutsideHooksPath machine repo
  return (⟨worktreesRemoved, headSet, gcAutoDisabled, hooksPathCleared⟩, repo)

/-! ### What is asked of it -/

/-- Where Git begins to read the path of a hook, and the path. It writes the name after the path that is
configured, so an empty one is the root, and it reads a relative one in the repository. -/
def hookPath (configured : Option Value) (name : String) : Place × List Part :=
  match configured with
  | none => (machine.root, [.name ".git", .name "hooks", .name name])
  | some (.expanded user parts) => (machine.directory user, parts ++ [.name name])
  | some (.path route) =>
    if route = ⟨.here, []⟩ then ([], [.name name])
    else (Files.base route.start machine.root, route.parts.reverse ++ [.name name])

/-- The file Git runs for a hook, where there is one. -/
def hook (configured : Option Value) (name : String) : Option Place :=
  let path := hookPath machine configured name
  match machine.fs.walk machine.fs.limit path.1 path.2 with
  | .ok (_, place) => if machine.fs.node place = some .file then some place else none
  | .error _ => none

/-- Every hook that Git would run lies inside the repository. -/
def HooksInside (configured : Option Value) : Prop :=
  ∀ name, ∀ place ∈ hook machine configured name, machine.root <:+ place

/-- The machine without the settings held outside the repository. -/
def Machine.without (machine : Machine) : Machine := { machine with system := {}, person := {} }

/-- A main repository in which no operation is under way. -/
structure Repo.Cloned (repo : Repo) : Prop where
  main : repo.kind = .main
  clear : ∀ row ∈ MARKERS, repo.present row.2 = false

/-- The scrub makes the clone its own repository, a second one changes nothing, and what fails fails without
the settings held outside. -/
structure Scrubbed (options : Options) (repo : Repo) : Prop where
  registrations : ∀ report after, apply machine options repo = .ok (report, after) → after.worktrees = none
  named : ∀ report after, apply machine options repo = .ok (report, after) →
    ∀ branch ∈ options.headBranch, after.head = .symbolic (HEADS ++ branch)
  collection : ∀ report after, apply machine options repo = .ok (report, after) →
    machine.config after Settings.gcAuto = some "0".toList
  hooks : ∀ report after, apply machine options repo = .ok (report, after) →
    HooksInside machine (machine.config after Settings.hooksPath)
  again : ∀ report after, apply machine options repo = .ok (report, after) →
    apply machine options after = .ok ({}, after)
  outside : ∀ error, apply machine options repo = .error error →
    ∃ error, apply machine.without options repo = .error error

/-- The branch that is asked for exists, and the setting of garbage collection is `0` or can be written. -/
structure Ready (options : Options) (repo : Repo) : Prop where
  known : ∀ branch ∈ options.headBranch, HEADS ++ branch ∈ repo.refs.map Ref.name
  written : machine.config repo Settings.gcAuto = some "0".toList ∨ repo.own.gcAuto.length ≤ 1

/-- The hooks path that is in force once one of the repository's own that is not inside is dropped. -/
def inForce (repo : Repo) : Option Value :=
  (repo.own.hooksPath.getLast?.filter machine.contains).or (machine.elsewhere Settings.hooksPath).getLast?

/-- The hooks path that is in force is kept, and the hooks there are inside. -/
structure Fits (repo : Repo) : Prop where
  kept : ∀ configured ∈ inForce machine repo, machine.contains configured = true
  inside : HooksInside machine (inForce machine repo)

/-! ### One step after another -/

section Steps

variable {machine : Machine} {options : Options} {repo : Repo}

theorem config_eq {α : Type} (name : Settings → List α) :
    machine.config repo name = (name repo.own).getLast?.or (machine.elsewhere name).getLast? :=
  List.getLast?_append

/-- What the scrub makes of a repository before it looks at the hooks. -/
structure Settled (machine : Machine) (options : Options) (repo : Repo) : Prop where
  cloned : repo.Cloned
  registrations : repo.worktrees = none
  known : ∀ branch ∈ options.headBranch, HEADS ++ branch ∈ repo.refs.map Ref.name
  named : ∀ branch ∈ options.headBranch, repo.head = .symbolic (HEADS ++ branch)
  collection : machine.config repo Settings.gcAuto = some "0".toList

/-- The path that is configured is gone from a repository's own file. -/
def Repo.unset (repo : Repo) : Repo := { repo with own := { repo.own with hooksPath := [] } }

theorem Settled.unset (h : Settled machine options repo) : Settled machine options repo.unset :=
  ⟨⟨h.cloned.main, h.cloned.clear⟩, h.registrations, h.known, h.named, h.collection⟩

theorem inspect_of_clear (h : ∀ row ∈ MARKERS, repo.present row.2 = false) : inspect repo.present = [] := by
  have hfold : ∀ (rows : List (State × String)), (∀ row ∈ rows, repo.present row.2 = false) →
      rows.foldl (fun states row ↦
        if repo.present row.2 && !states.contains row.1 then states ++ [row.1] else states) [] = [] := by
    intro rows hrows
    induction rows with
    | nil => rfl
    | cons row rows ih =>
      obtain ⟨hrow, hrows⟩ := List.forall_mem_cons.mp hrows
      rw [List.foldl_cons, hrow]
      exact ih hrows
  exact hfold MARKERS h

theorem setHead_known (h : ∀ branch ∈ options.headBranch, HEADS ++ branch ∈ repo.refs.map Ref.name) :
    ∃ set head, setHead options.headBranch repo = .ok (set, { repo with head := head }) ∧
      ∀ branch ∈ options.headBranch, head = .symbolic (HEADS ++ branch) := by
  cases hbranch : options.headBranch with
  | none => exact ⟨none, repo.head, rfl, fun _ hmem ↦ nomatch hmem⟩
  | some branch =>
    rw [setHead, if_neg (not_not_intro (h branch hbranch))]
    by_cases hhead : repo.head = .symbolic (HEADS ++ branch)
    · rw [if_pos hhead]
      refine ⟨none, repo.head, rfl, fun other hother ↦ ?_⟩
      cases hother
      exact hhead
    · rw [if_neg hhead]
      refine ⟨some branch, _, rfl, fun other hother ↦ ?_⟩
      cases hother
      rfl

theorem setHead_settled (h : Settled machine options repo) :
    setHead options.headBranch repo = .ok (none, repo) := by
  cases hbranch : options.headBranch with
  | none => rfl
  | some branch =>
    rw [setHead, if_neg (not_not_intro (h.known branch hbranch)), if_pos (h.named branch hbranch)]

theorem setHead_unknown {branch : RefName} (hbranch : options.headBranch = some branch)
    (h : HEADS ++ branch ∉ repo.refs.map Ref.name) :
    setHead options.headBranch repo = .error (.gitUnknownBranch branch) := by
  rw [hbranch, setHead, if_pos h]

theorem disableGc_written
    (h : machine.config repo Settings.gcAuto = some "0".toList ∨ repo.own.gcAuto.length ≤ 1) :
    ∃ disabled gcAuto, disableGc machine repo =
        .ok (disabled, { repo with own := { repo.own with gcAuto := gcAuto } }) ∧
      (machine.elsewhere Settings.gcAuto ++ gcAuto).getLast? = some "0".toList := by
  rw [disableGc]
  by_cases hzero : machine.config repo Settings.gcAuto = some "0".toList
  · rw [if_pos hzero]
    exact ⟨false, repo.own.gcAuto, rfl, hzero⟩
  · rw [if_neg hzero, if_neg (Nat.not_lt.mpr (h.resolve_left hzero))]
    exact ⟨true, ["0".toList], rfl, List.getLast?_concat⟩

theorem disableGc_refused
    (h : ¬(machine.config repo Settings.gcAuto = some "0".toList ∨ repo.own.gcAuto.length ≤ 1)) :
    disableGc machine repo = .error .git := by
  obtain ⟨hzero, hlength⟩ := not_or.mp h
  rw [disableGc, if_neg hzero, if_pos (Nat.lt_of_not_le hlength)]

theorem apply_cloned (h : repo.Cloned) : apply machine options repo =
    (setHead options.headBranch { repo with worktrees := none }).bind fun headed ↦
      (disableGc machine headed.2).bind fun quieted ↦
        (clearOutsideHooksPath machine quieted.2).map fun cleared ↦
          (⟨repo.worktrees.isSome, headed.1, quieted.1, cleared.1⟩, cleared.2) := by
  have hremove : removeWorktrees repo = (repo.worktrees.isSome, { repo with worktrees := none }) := by
    obtain ⟨kind, present, worktrees, refs, head, own⟩ := repo
    cases worktrees <;> rfl
  rw [apply, if_neg (not_not_intro h.main), if_neg (not_not_intro (inspect_of_clear h.clear)), hremove]
  rfl

/-- What a scrub comes to where what it needs is there: the hooks of a repository that is settled. -/
theorem apply_ready (hcloned : repo.Cloned) (h : Ready machine options repo) :
    ∃ (before : Repo) (report : Report), Settled machine options before ∧
      before.own.hooksPath = repo.own.hooksPath ∧
      apply machine options repo = (clearOutsideHooksPath machine before).map fun cleared ↦
        ({ report with hooksPathCleared := cleared.1 }, cleared.2) := by
  obtain ⟨set, head, hset, hhead⟩ := @setHead_known options { repo with worktrees := none } h.known
  obtain ⟨disabled, gcAuto, hdisable, hzero⟩ :=
    @disableGc_written machine { repo with worktrees := none, head := head } h.written
  refine ⟨{ repo with worktrees := none, head := head, own := { repo.own with gcAuto := gcAuto } },
    ⟨repo.worktrees.isSome, set, disabled, none⟩,
    ⟨⟨hcloned.main, hcloned.clear⟩, rfl, h.known, hhead, hzero⟩, rfl, ?_⟩
  rw [apply_cloned hcloned, hset, Except.bind, hdisable]
  rfl

theorem apply_settled (h : Settled machine options repo) :
    apply machine options repo = (clearOutsideHooksPath machine repo).map fun cleared ↦
      ({ hooksPathCleared := cleared.1 }, cleared.2) := by
  have hnone : { repo with worktrees := none } = repo := by
    rw [← h.registrations]
  rw [apply_cloned h.cloned, hnone, setHead_settled h, Except.bind, disableGc, if_pos h.collection,
    h.registrations]
  rfl

theorem apply_not_ready (hcloned : repo.Cloned) (h : ¬Ready machine options repo) :
    ∃ error, apply machine options repo = .error error := by
  rw [apply_cloned hcloned]
  by_cases hknown : ∀ branch ∈ options.headBranch, HEADS ++ branch ∈ repo.refs.map Ref.name
  · obtain ⟨set, head, hset, -⟩ := @setHead_known options { repo with worktrees := none } hknown
    rw [hset, Except.bind]
    refine ⟨.git, ?_⟩
    have hdisable := @disableGc_refused machine { repo with worktrees := none, head := head } fun hwritten ↦
      h ⟨hknown, hwritten⟩
    rw [hdisable]
    rfl
  · obtain ⟨branch, hbranch⟩ := not_forall.mp hknown
    obtain ⟨hbranch, hunknown⟩ := Classical.not_imp.mp hbranch
    rw [@setHead_unknown options { repo with worktrees := none } branch hbranch hunknown]
    exact ⟨_, rfl⟩

theorem clear_none (h : machine.config repo Settings.hooksPath = none) :
    clearOutsideHooksPath machine repo = .ok (none, repo) := by
  rw [clearOutsideHooksPath, h]

theorem clear_contained {configured : Value} (h : machine.config repo Settings.hooksPath = some configured)
    (hinside : machine.contains configured = true) :
    clearOutsideHooksPath machine repo = .ok (none, repo) := by
  rw [clearOutsideHooksPath, h]
  exact if_pos hinside

theorem clear_outside {configured : Value} (h : machine.config repo Settings.hooksPath = some configured)
    (houtside : machine.contains configured = false) : clearOutsideHooksPath machine repo =
      if repo.own.hooksPath = [] then .error .git else .ok (some configured, repo.unset) := by
  rw [clearOutsideHooksPath, h]
  exact if_neg (Bool.not_eq_true _ ▸ houtside)

/-- With no path of its own, a repository has the one that is held elsewhere. -/
theorem config_of_own_nil (h : repo.own.hooksPath = []) :
    machine.config repo Settings.hooksPath = (machine.elsewhere Settings.hooksPath).getLast? := by
  rw [config_eq, h]
  rfl

theorem inForce_of_own_nil (h : repo.own.hooksPath = []) :
    inForce machine repo = (machine.elsewhere Settings.hooksPath).getLast? := by
  rw [inForce, h]
  rfl

theorem config_of_own {configured : Value} (h : repo.own.hooksPath.getLast? = some configured) :
    machine.config repo Settings.hooksPath = some configured := by
  rw [config_eq, h]
  rfl

theorem inForce_of_own {configured : Value} (h : repo.own.hooksPath.getLast? = some configured) :
    inForce machine repo = if machine.contains configured = true then some configured
      else (machine.elsewhere Settings.hooksPath).getLast? := by
  rw [inForce, h, Option.filter_some]
  split_ifs
  · rfl
  · rfl

/-- Where the path in force is kept, it is the one of the configuration from then on. -/
theorem clear_of_kept (h : ∀ configured ∈ inForce machine repo, machine.contains configured = true) :
    ∃ cleared after, clearOutsideHooksPath machine repo = .ok (cleared, after) ∧
      (after = repo ∨ after = repo.unset) ∧ machine.config after Settings.hooksPath = inForce machine repo ∧
      clearOutsideHooksPath machine after = .ok (none, after) := by
  have hstays (after : Repo) (hconfig : machine.config after Settings.hooksPath = inForce machine repo) :
      clearOutsideHooksPath machine after = .ok (none, after) := by
    cases hforce : inForce machine repo with
    | none => exact clear_none (hconfig.trans hforce)
    | some configured => exact clear_contained (hconfig.trans hforce) (h configured hforce)
  cases hown : repo.own.hooksPath.getLast? with
  | none =>
    have hnil := List.getLast?_eq_none_iff.mp hown
    have hconfig := (@config_of_own_nil machine _ hnil).trans (inForce_of_own_nil hnil).symm
    exact ⟨none, repo, hstays repo hconfig, Or.inl rfl, hconfig, hstays repo hconfig⟩
  | some configured =>
    have hforce := @inForce_of_own machine _ _ hown
    cases hinside : machine.contains configured with
    | true =>
      rw [hinside, if_pos rfl] at hforce
      have hconfig := (@config_of_own machine _ _ hown).trans hforce.symm
      exact ⟨none, repo, hstays repo hconfig, Or.inl rfl, hconfig, hstays repo hconfig⟩
    | false =>
      rw [hinside, if_neg Bool.false_ne_true] at hforce
      have hconfig := (@config_of_own_nil machine repo.unset rfl).trans hforce.symm
      refine ⟨some configured, repo.unset, ?_, Or.inr rfl, hconfig, hstays _ hconfig⟩
      rw [clear_outside (config_of_own hown) hinside, if_neg]
      intro hnil
      rw [hnil] at hown
      cases hown

/-- Where the path in force is not kept, either there is nothing to unset, or it stays when the repository's
own is unset. -/
theorem clear_of_not_kept {configured : Value} (hin : inForce machine repo = some configured)
    (h : machine.contains configured = false) :
    repo.own.hooksPath = [] ∧ clearOutsideHooksPath machine repo = .error .git ∨
      ∃ cleared, clearOutsideHooksPath machine repo = .ok (cleared, repo.unset) ∧
        clearOutsideHooksPath machine repo.unset = .error .git := by
  cases hown : repo.own.hooksPath.getLast? with
  | none =>
    have hnil := List.getLast?_eq_none_iff.mp hown
    have hconfig := (config_of_own_nil hnil).trans ((inForce_of_own_nil hnil).symm.trans hin)
    exact Or.inl ⟨hnil, (clear_outside hconfig h).trans (if_pos hnil)⟩
  | some own =>
    have hforce := (@inForce_of_own machine _ _ hown).symm.trans hin
    cases hinside : machine.contains own with
    | true =>
      rw [hinside, if_pos rfl] at hforce
      cases hforce
      rw [h] at hinside
      cases hinside
    | false =>
      rw [hinside, if_neg Bool.false_ne_true] at hforce
      refine Or.inr ⟨some own, ?_, ?_⟩
      · rw [clear_outside (config_of_own hown) hinside, if_neg]
        intro hnil
        rw [hnil] at hown
        cases hown
      · rw [clear_outside ((@config_of_own_nil machine repo.unset rfl).trans hforce) h]
        exact if_pos rfl

end Steps

/-! ### The theorem -/

section Whole

variable {machine : Machine} {options : Options} {repo : Repo}

theorem inForce_congr {other : Repo} (h : other.own.hooksPath = repo.own.hooksPath) :
    inForce machine other = inForce machine repo := by
  rw [inForce, inForce, h]

/-- Where the path in force is kept, the scrub answers, and finds its work done the next time. -/
theorem apply_of_kept (hcloned : repo.Cloned) (hready : Ready machine options repo)
    (h : ∀ configured ∈ inForce machine repo, machine.contains configured = true) :
    ∃ report after, apply machine options repo = .ok (report, after) ∧ Settled machine options after ∧
      machine.config after Settings.hooksPath = inForce machine repo ∧
      apply machine options after = .ok ({}, after) := by
  obtain ⟨before, report, hsettled, hown, happly⟩ := apply_ready hcloned hready
  rw [← inForce_congr hown] at h ⊢
  obtain ⟨cleared, after, hclear, hafter, hconfig, hagain⟩ := clear_of_kept h
  have hlater : Settled machine options after := by
    rcases hafter with rfl | rfl
    · exact hsettled
    · exact hsettled.unset
  refine ⟨{ report with hooksPathCleared := cleared }, after, ?_, hlater, hconfig, ?_⟩
  · rw [happly, hclear]
    rfl
  · rw [apply_settled hlater, hagain]
    rfl

/-- Whether garbage collection can be turned off is for the repository's own file to say. -/
theorem written_iff : machine.config repo Settings.gcAuto = some "0".toList ∨ repo.own.gcAuto.length ≤ 1 ↔
    repo.own.gcAuto.getLast? = some "0".toList ∨ repo.own.gcAuto.length ≤ 1 := by
  refine or_congr_left' fun hlength ↦ ?_
  have hne : repo.own.gcAuto ≠ [] := fun hnil ↦ hlength (by rw [hnil]; exact Nat.zero_le 1)
  rw [config_eq, List.getLast?_eq_some_getLast hne]
  rfl

theorem ready_without : Ready machine.without options repo ↔ Ready machine options repo :=
  ⟨fun h ↦ ⟨h.known, written_iff.mpr (written_iff.mp h.written)⟩,
    fun h ↦ ⟨h.known, written_iff.mpr (written_iff.mp h.written)⟩⟩

/-- A clone is scrubbed exactly when, where its branch and its garbage collection can be set at all, the
hooks path that is left in force is kept and its hooks are inside. -/
theorem scrubbed_iff (machine : Machine) (options : Options) {repo : Repo} (h : repo.Cloned) :
    Scrubbed machine options repo ↔ (Ready machine options repo → Fits machine repo) := by
  by_cases hready : Ready machine options repo
  swap
  · obtain ⟨error, herror⟩ := apply_not_ready h hready
    obtain ⟨other, hother⟩ := apply_not_ready h (ready_without.not.mpr hready)
    refine iff_of_true ⟨?_, ?_, ?_, ?_, ?_, fun _ _ ↦ ⟨other, hother⟩⟩ fun hyes ↦ absurd hyes hready
    all_goals
      intro report after happly
      rw [herror] at happly
      cases happly
  rw [forall_prop_of_true hready]
  constructor
  · intro hscrubbed
    have hkept : ∀ configured ∈ inForce machine repo, machine.contains configured = true := by
      intro configured hin
      by_contra hnot
      have hnot := Bool.not_eq_true _ ▸ hnot
      obtain ⟨before, report, hsettled, hown, happly⟩ := apply_ready h hready
      rw [← inForce_congr hown] at hin
      rcases clear_of_not_kept hin hnot with ⟨hnil, hclear⟩ | ⟨cleared, hclear, hagain⟩
      · -- Nothing to unset: without the settings held outside, the scrub answers.
        rw [hclear] at happly
        obtain ⟨error, herror⟩ := hscrubbed.outside _ happly
        have hnone : inForce machine.without repo = none := inForce_of_own_nil (hown.symm.trans hnil)
        obtain ⟨_, _, hanswer, -⟩ := apply_of_kept h (ready_without.mpr hready) (by rw [hnone]; nofun)
        rw [hanswer] at herror
        cases herror
      · rw [hclear] at happly
        have hlater := hscrubbed.again _ _ happly
        rw [apply_settled hsettled.unset, hagain] at hlater
        cases hlater
    obtain ⟨report, after, happly, -, hconfig, -⟩ := apply_of_kept h hready hkept
    exact ⟨hkept, hconfig ▸ hscrubbed.hooks report after happly⟩
  · intro hfits
    obtain ⟨report, after, happly, hsettled, hconfig, hagain⟩ := apply_of_kept h hready hfits.kept
    refine ⟨?_, ?_, ?_, ?_, ?_, fun error herror ↦ ?_⟩
    · rintro _ _ hother
      cases happly.symm.trans hother
      exact hsettled.registrations
    · rintro _ _ hother
      cases happly.symm.trans hother
      exact hsettled.named
    · rintro _ _ hother
      cases happly.symm.trans hother
      exact hsettled.collection
    · rintro _ _ hother
      cases happly.symm.trans hother
      rw [hconfig]
      exact hfits.inside
    · rintro _ _ hother
      cases happly.symm.trans hother
      exact hagain
    · rw [happly] at herror
      cases herror

end Whole

/-- A clone, and hooks beside it. -/
def files : Files where
  node
    | [] | ["unit"] | ["hooks"] => some .directory
    | ["pre-commit", "hooks"] => some .file
    | _ => none
  root := rfl
  rooted name place h := by
    split at h <;> simp_all
  limit := 40
  cwd := []
  stands := rfl

/-- A machine on which the person's file gives some hooks paths. -/
def giving (hooksPath : List Value) : Machine :=
  ⟨files, ["unit"], fun _ ↦ ["hooks"], {}, { hooksPath := hooksPath }⟩

/-- A clone whose own file gives some hooks paths. -/
def clone (hooksPath : List Value) : Repo :=
  ⟨.main, fun _ ↦ false, some ["w1"], [⟨["refs", "heads", "main"], ⟨1⟩⟩],
    .symbolic ["refs", "heads", "main"], { hooksPath := hooksPath }⟩

theorem clone_cloned (hooksPath : List Value) : (clone hooksPath).Cloned := ⟨rfl, fun _ _ ↦ rfl⟩

/-- The path of the hooks beside, from the root and from the clone. -/
def absolute : Value := .path (route ["hooks"])

def relative : Value := .path ⟨.here, [.name "hooks", .up]⟩

theorem scrubbed_plain : Scrubbed (giving []) {} (clone []) :=
  (scrubbed_iff (giving []) {} (clone_cloned [])).mpr fun _ ↦
    ⟨fun _ h ↦ (nomatch h), fun _ _ h ↦ by cases h⟩

/-- A relative path that leads outside is kept, one that the person's file gives cannot be unset, and one
that both give is unset once. -/
theorem outside_unscrubbed : ¬Scrubbed (giving []) {} (clone [relative]) ∧
    ¬Scrubbed (giving [absolute]) {} (clone []) ∧ ¬Scrubbed (giving [absolute]) {} (clone [absolute]) := by
  refine ⟨fun h ↦ ?_, fun h ↦ ?_, fun h ↦ ?_⟩
  · have hinside := h.hooks _ _ rfl "pre-commit" ["pre-commit", "hooks"] (by decide)
    exact absurd hinside (by decide)
  · obtain ⟨error, herror⟩ := h.outside .git rfl
    cases herror
  · have hagain := h.again _ _ rfl
    cases hagain

end Nodal.Git.Scrub
