import Nodal.Substrate.Spot

/-!
# The build of one base

`substrate/build.rs`: the four steps of a build as scripts over what stands at the base's name, the plan
they make, and the processes that run it. The plan recovers by being resumed, so a process that finds the
run's own gone applies what the journal does not call applied, and more than one may find it so; a run a
step failed in is carried on with by whoever asks.

Every step that touches the tree first carries a tree of an older release into the name (`settle`).
-/

set_option autoImplicit false

namespace Nodal.Substrate.Build

open Foundation Foundation.Attempt Lifecycle Model Recipes

/-- What a function of a build is: commands, ending in a value or an error. -/
abbrev Script : Type → Type := Attempt Command Command.Answer String

/-- A command, or the error it ends with. -/
def ran {α : Type} (answer : Script (Except String α)) : Script α := do
  match ← answer with
  | .ok value => pure value
  | .error why => throw why

/-- `Error::BaseCommitMissing`. -/
def baseCommitMissing (commit : String) : String :=
  "commit " ++ commit ++ " is not in the remote or the checkout it was asked for"

/-- `Error::BaseGone`. -/
def baseGone (path : Text) : String :=
  "the base directory " ++ String.ofList path ++ " is not there, so there is no base to hand over"

/-- The remote a base is cloned from and fetched from. -/
def ORIGIN : String := "origin"

/-! ### The tools of a build -/

/-- A path joined to a directory: an absolute one is itself. -/
def join (directory path : Text) : Text :=
  if path.head? = some '/' then path else directory ++ '/' :: path

/-- The same argument list, with a program that lives inside the base named by its whole path. -/
def runnable (argv : List Text) (destination : Text) : List Text :=
  match argv with
  | [] => []
  | program :: rest => (if '/' ∈ program then join destination program else program) :: rest

/-- The steps of one package manager's install. -/
def installed (destination : Text) (install : Install) : List ToolStep :=
  let name := "install." ++ String.ofList (program install.manager)
  (if install.prepare = [] then []
    else [⟨name ++ ".environment", some install.manager, runnable install.prepare destination,
      install.env⟩]) ++
    [⟨name, some install.manager, runnable install.argv destination, install.env⟩]

/-- The tool steps a build has, in order: every install this base runs, then the warm build. -/
def tools (installs : List Install) (destination : Text) (warm : List Text) : List ToolStep :=
  (installs.filter (·.at' = .base)).flatMap (installed destination) ++ [⟨"warm", none, warm, []⟩]

/-- What is done to the tree, in order. A tool with nothing to run is no step. -/
def wanted (params : Params) : List Deed :=
  .checkout params.commit ::
    ((tools params.installs params.destination params.warm).filter (·.argv ≠ [])).map .tool

theorem length_wanted (params : Params) : (wanted params).length ≤ 2 * params.installs.length + 2 := by
  have hone (install : Install) : (installed params.destination install).length ≤ 2 := by
    dsimp only [installed]
    split <;> simp
  have hall (installs : List Install) :
      (installs.flatMap (installed params.destination)).length ≤ 2 * installs.length := by
    induction installs with
    | nil => exact Nat.le_refl 0
    | cons install installs ih =>
      have := hone install
      rw [List.flatMap_cons, List.length_append, List.length_cons]
      omega
  have htools : (tools params.installs params.destination params.warm).length ≤
      2 * params.installs.length + 1 := by
    have := hall (params.installs.filter (·.at' = .base))
    have := params.installs.length_filter_le (·.at' = .base)
    rw [tools, List.length_append, List.length_singleton]
    omega
  rw [wanted, List.length_cons, List.length_map]
  have := (tools params.installs params.destination params.warm).length_filter_le (·.argv ≠ [])
  omega

/-! ### The steps -/

/-- A step: its name in the journal, what applies it and what undoes it. -/
structure Work where
  key : String
  apply : Script Output
  undo : Script Unit

/-- Carry a tree an earlier release left beside the name into the name itself. The mark is written before
the tree moves. No file stands at a base's name, so what is there is a directory. -/
def settle : Script Unit := do
  if !(← call (Command.isDir .legacy)) then
    return
  if ← call (Command.isDir .own) then
    return
  ran (call Command.mark)
  ran (call Command.renameLegacy)

/-- A clone, or a copy of the nearest base, under the attempt's own name. -/
def assembled (attempt : Process) (origin : Origin) : Script Unit := do
  let clone (source : Source) : Script Unit := do
    call (Command.beginClone attempt source)
    ran (call (Command.endClone attempt source))
  match origin with
  | .remote url => clone (.git url)
  | .checkout path => clone (.git path)
  | .neighbour _ path _ =>
    ran (call (Command.enforce path))
    clone (.tree path)

/-- Remove a directory if it is there. -/
def remove (name : Name) : Script Unit := do
  call (Command.beginRemove name)
  ran (call (Command.endRemove name))

/-- Put a repository at the destination: a fresh clone, or a copy of a neighbour. -/
def Materialise (params : Params) (attempt : Process) : Work where
  key := "clone"
  apply := do
    settle
    if ← call (Command.isDir .own) then
      return nothing
    ran (call Command.createParent)
    call Command.sweep
    assembled attempt params.origin
    ran (call (Command.scrub attempt))
    -- The mark is written before the move, so no tree stands at the name without it.
    ran (call Command.mark)
    ran (call (Command.renameScratch attempt))
    return nothing
  undo := do
    call Command.sweep
    remove .legacy
    remove .own
    if ← call Command.marked then
      ran (call Command.unmark)

/-- Make sure the commit is in the base's object database. -/
def reach (objects rev : String) : Script Unit := do
  if ← ran (call (Command.hasCommit rev)) then
    return
  let fetched ← call (Command.fetch ORIGIN)
  if fetched.isOk then
    if ← ran (call (Command.hasCommit rev)) then
      return
  ran (call (Command.fetchFrom objects rev))
  if ← ran (call (Command.hasCommit rev)) then
    return
  throw (baseCommitMissing rev)

/-- Put the base's working tree at the commit it is keyed to. -/
def Checkout (params : Params) (position : ℕ) (commit : String) : Work where
  key := "checkout"
  apply := do
    settle
    ran (call Command.openRepository)
    reach params.objects commit
    ran (call (Command.perform position (.checkout commit)))
    return nothing
  undo := pure ()

/-- Run one tool in the base: the package manager's install, or the build command. -/
def Tool (position : ℕ) (step : ToolStep) : Work where
  key := step.name
  apply := do
    settle
    if step.argv = [] then
      return nothing
    ran (call (Command.perform position (.tool step)))
    return nothing
  undo := pure ()

/-- Take the mark off the finished base. -/
def Promote (params : Params) : Work where
  key := "promote"
  apply := do
    settle
    if !(← call (Command.isDir .own)) then
      throw (baseGone params.destination)
    if !(← call Command.marked) then
      return nothing
    ran (call Command.unmark)
    return nothing
  undo := do
    if !(← call (Command.isDir .own)) then
      return
    if ← call Command.marked then
      return
    ran (call Command.mark)

/-- The step of what is done at one position. -/
def Deed.work (params : Params) (position : ℕ) : Deed → Work
  | .checkout commit => Checkout params position commit
  | .tool step => Tool position step

/-- The steps of a build: the clone, what is done to the tree, and the end of the mark. -/
def works (params : Params) (attempt : Process) : List Work :=
  Materialise params attempt ::
    ((wanted params).zipIdx 1).map (fun entry ↦ entry.1.work params entry.2) ++ [Promote params]

/-! ### The plan -/

/-- What this operation is called in the journal. -/
def KIND : String := "base build"

/-- The name of what is done at one position. -/
def Deed.key : Deed → String
  | .checkout _ => "checkout"
  | .tool step => step.name

/-- The plan that builds one base. Its parameters are kept by the base they are of. -/
def plan (params : Params) : Plan where
  kind := KIND
  subject := params.base
  params := params.base
  recovery := .resume
  steps := ⟨"clone"⟩ :: (wanted params).map (fun deed ↦ ⟨deed.key⟩) ++ [⟨"promote"⟩]
  records := none
  fits := by
    have hlength := length_wanted params
    have hfits := params.fits
    rw [List.length_append, List.length_cons, List.length_map, List.length_singleton]
    omega

theorem steps_eq_works (params : Params) (attempt : Process) :
    (plan params).steps = (works params attempt).map fun work ↦ ⟨work.key⟩ := by
  have hkey (k : ℕ) (deed : Deed) : (deed.work params k).key = deed.key := by cases deed <;> rfl
  have hinner : ((wanted params).zipIdx 1).map (fun entry ↦ (⟨(entry.1.work params entry.2).key⟩ : Step)) =
      (wanted params).map fun deed ↦ ⟨deed.key⟩ := by
    have hfirst := congrArg (List.map fun deed : Deed ↦ (⟨deed.key⟩ : Step))
      (List.zipIdx_map_fst 1 (wanted params))
    rw [List.map_map] at hfirst
    simp only [hkey]
    exact hfirst
  rw [works, List.cons_append, List.map_cons, List.map_append, List.map_map]
  exact congrArg (fun inner ↦ (⟨"clone"⟩ : Step) :: inner ++ [⟨"promote"⟩]) hinner.symm

/-- What the steps of a build do, by position. -/
def deeds (params : Params) (attempt : Process) : Deeds Command Command.Answer where
  snapshot := .done (.ok false)
  apply position := ((works params attempt)[position]?.elim (throw "no such step") Work.apply).run
  undo position := ((works params attempt)[position]?.elim (throw "no such step") Work.undo).run

/-! ### The processes -/

/-- What a process was called for: to build, to finish what a process that is gone left, or to carry on
with a run a step failed in. -/
inductive Job
  | run
  | resume
  | retry
  deriving DecidableEq, Repr

/-- How the commands are performed. The registry write is the row of the base. -/
def performance : Performance Command Grounds Command.Answer Command.Choice where
  act := act
  register _ _ g := .ok (nothing, { g with rows := g.spot :: g.rows })

variable (params : Params) (id : OperationId)

/-- The program of a job, which ends with whether it answered without an error. -/
def programOf (process : Process) : Job → Program (Act Command) (Act.Answer Command.Answer) Bool
  | .run => (operated (deeds params process) (run id (plan params))).run >>=
      fun result ↦ .done result.toBool
  | .resume => (operated (deeds params process) (resume id (plan params))).run >>=
      fun result ↦ .done result.toBool
  | .retry => (operated (deeds params process) (retry id (plan params))).run >>=
      fun result ↦ .done result.toBool

/-- A process enters. The build is begun once; what is left of it is anyone's when its process has gone. -/
def enter (process : Process) (job : Job) (w : Performed Grounds) : Option (Performed Grounds) :=
  if w.journal.admits process then
    let journal := { w.journal with
      processes := process :: w.journal.processes, past := process :: w.journal.past }
    match job with
    | .run =>
      if w.outside.turn = .before then some ⟨journal, { w.outside with turn := .of process }⟩ else none
    | .resume | .retry => if w.outside.turn = .over then some { w with journal } else none
  else none

/-- A process leaves. -/
def leave (process : Process) (w : Performed Grounds) : Performed Grounds where
  journal := depart process w.journal
  outside := if w.outside.turn = .of process then { w.outside with turn := .over } else w.outside

/-- The processes over one base's names. -/
def machine : Machine Process Job (Performed Grounds) (Act Command) (Act.Answer Command.Answer)
    (Act.Choice Command.Choice) Bool where
  program := programOf params id
  enter := enter
  leave := leave
  perform := performance.perform

/-- The journal and the names, and what each live process has left to do. -/
abbrev Stage : Type :=
  Config Process (Performed Grounds) (Act Command) (Act.Answer Command.Answer) Bool

/-- One step of a history. -/
abbrev Happening : Type := Label Process Job (Act Command) (Act.Choice Command.Choice)

end Nodal.Substrate.Build
