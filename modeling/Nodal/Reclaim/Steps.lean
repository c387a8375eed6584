import Nodal.Reclaim.Commands

/-!
# A reclaim

`lifecycle/ops/reclaim.rs`: the reading that refuses or lets the home go, the hook, the refs on the
remote, and the plan. The home is moved last of the steps, and the table is read again before the move;
the home itself is not.
-/

set_option autoImplicit false

namespace Nodal.Reclaim

open Git Removal Foundation Foundation.Attempt Lifecycle

/-- What a function of a reclaim is: commands, ending in a value or an error. -/
abbrev Script : Type → Type := Attempt Command Command.Answer String

/-! ### Errors -/

/-- `Error::NotUnique`. -/
def notUnique (slug : String) (findings : List Finding) : String :=
  slug ++ " holds work that is only here: " ++ Finding.summarise findings

/-- `Error::HomeInUse`. -/
def homeInUse (slug : String) (standing : List Removal.Standing) : String :=
  slug ++ " still has work standing in its home: " ++ ", ".intercalate (standing.map Removal.Standing.label) ++
    "; reclaim stopped what carries the unit's id and left these alone; " ++
    "--force moves the home under them"

/-- `Error::ProcessTableUnread`. -/
def processTableUnread (slug why : String) : String :=
  slug ++ " was not moved: the process table could not be read: " ++ why ++
    "; --force moves the home to the trash anyway, after a snapshot of any work it holds"

/-! ### What the plan is built from -/

/-- Where a unit's home is, and whether it is one Nodal may move. -/
inductive Placement
  | managed
  | root
  | gone
  deriving DecidableEq, Repr

/-- What the plan is built from. -/
structure Params where
  placed : Placement
  prune : Bool
  force : Bool
  tethers : List ℕ
  deriving DecidableEq, Repr

variable (setting : Setting)

/-- A command, or the error it ends with. -/
def ran {α : Type} (answer : Script (Except String α)) : Script α := do
  match ← answer with
  | .ok value => pure value
  | .error why => throw why

/-- Which of the three a unit's home is. -/
def placement : Script Placement := do
  if ← ran (call Command.placed) then
    return if setting.managed then .managed else .root
  return .gone

/-- The question a reclaim asks of a home. -/
def asked (declared : List RelPath) (siblings : List Path) : Input :=
  { Input.refusal setting.home (some setting.root) siblings with declared, dispositions := true }

/-- The uniqueness check, and the refusal that comes of it. -/
def examine (placed : Placement) (declared : List RelPath) : Script (List Finding) := do
  if placed = .gone then
    return []
  let siblings ← call Command.siblings
  match ← call (Command.assess (asked setting declared siblings)) with
  | .error _ => throw "the home could not be read"
  | .ok (assessment, verdict) =>
    if verdict.isSafe then
      return []
    if setting.force then
      return assessment.findings
    throw (notUnique setting.slug assessment.findings)

/-- Refuse when the home would move and the process table cannot be read. -/
def refuseUnread (placed : Placement) : Script Unit := do
  if placed = .managed then
    let seen ← call Command.processes
    match unmovable seen with
    | some (.unread note) =>
      if setting.force then pure () else throw (processTableUnread setting.slug note.why)
    | _ => pure ()

/-- The snapshot a forced reclaim takes of what the check found. -/
def snapshot (placed : Placement) (findings : List Finding) : Script Unit := do
  if placed = .gone ∨ findings = [] then
    return
  match ← call (Command.openRepository setting.home) with
  | .error _ => throw "not a repository"
  | .ok _ =>
    let _ ← ran (call (Command.snapshot (wip setting.unit)))

/-- Take the hold, then refuse: everything that is worked out before anything runs. -/
def claimed : Script Params := do
  ran (call Command.rows)
  let placed ← placement setting
  let declared ← call Command.recipe
  let findings ← examine setting placed declared
  refuseUnread setting placed
  snapshot setting placed findings
  ran (call Command.prepared)
  return ⟨placed, setting.prune, setting.force, []⟩

/-! ### The refs on the remote -/

/-- The remote a push goes to: `origin`, or the only one there is. -/
def chosen (remotes : List String) : Option String :=
  if REMOTE ∈ remotes then some REMOTE
  else match remotes with
    | [remote] => some remote
    | _ => none

/-- Ask the remote what it holds under the unit's namespace, and delete that. -/
def prunedOn (remote : String) : Script Unit := do
  match ← call (Command.lsRemote remote (space setting.unit)) with
  | .error _ => return
  | .ok names =>
    if names = [] then
      return
    let _ ← call (Command.delete remote names)

/-- Delete Nodal's own refs for this unit on the remote. What fails out there is a note. -/
def pruneRefs : Script Unit := do
  if !(← ran (call Command.wasPushed)) then
    return
  if !(← call (Command.isDir setting.home)) then
    return
  match ← call (Command.openRepository setting.home) with
  | .error _ => return
  | .ok _ =>
    match ← call (Command.remotes setting.home) with
    | .error _ => return
    | .ok remotes =>
      match chosen remotes with
      | none => return
      | some remote => prunedOn setting remote

/-! ### The steps -/

/-- A step: its name in the journal, what applies it and what undoes it. -/
structure Work where
  key : String
  apply : Script Output
  undo : Script Unit

/-- Stop everything attributed to the unit. Its undo restores nothing. -/
def StopRuntime : Work where
  key := "runtime.stop"
  apply := do
    ran (call Command.stop)
    return .value "\x7b\x7d"
  undo := pure ()

/-- Refuse when something stands in the home, or when the table could not be read. -/
def refuse : Script Runtime := do
  let seen ← call Command.processes
  match unmovable seen with
  | none => return seen
  | some (.standing standing) => throw (homeInUse setting.slug standing)
  | some (.unread note) => throw (processTableUnread setting.slug note.why)

/-- Move a directory, where it is there. -/
def moveTree (way : Way) : Script Unit := do
  if !(← call (Command.isDir (way.source setting))) then
    return
  ran (call (Command.createParent (way.dest setting)))
  ran (call (Command.rename way))

/-- Move the home into the trash, unless something Nodal did not start is standing in it. -/
def TrashHome (force : Bool) : Work where
  key := "home.trash"
  apply := do
    if force then
      moveTree setting .away
      return nothing
    let seen ← refuse setting
    moveTree setting .away
    return .value (reprStr seen)
  undo := moveTree setting .back

/-- Take what can be built again out of the trashed copy. -/
def TrashPrune : Work where
  key := "home.prune"
  apply := do
    call (Command.sweep setting.trash)
    return .value "\x7b\x7d"
  undo := pure ()

/-- Take what can be built again out of a checkout adopted in place. -/
def HomePrune (force : Bool) : Work where
  key := "home.prune"
  apply := do
    if force then
      call (Command.sweep setting.home)
      return .value "\x7b\x7d"
    let _ ← refuse setting
    call (Command.sweep setting.home)
    return .value "\x7b\x7d"
  undo := pure ()

/-- Take what Nodal wrote out of a checkout adopted in place. -/
def Unadopt : Work where
  key := "home.unadopt"
  apply := do
    if ← call (Command.isDir setting.home) then
      ran (call Command.unadopt)
    return nothing
  undo := pure ()

/-- The steps of a reclaim: stop, then move the home and trim it, or leave a checkout as it was. -/
def works (params : Params) : List Work :=
  StopRuntime :: if params.placed = .managed then
    [TrashHome setting params.force, TrashPrune setting]
  else if setting.managed then []
  else (if params.prune then [HomePrune setting params.force] else []) ++ [Unadopt setting]

theorem length_works (params : Params) : (works setting params).length ≤ 3 := by
  unfold works
  split
  · exact Nat.le_refl 3
  · split
    · decide
    · split
      · exact Nat.le_refl 3
      · exact Nat.le_succ 2

/-- The plan of a reclaim. -/
def plan (params : Params) : Plan where
  kind := "reclaim"
  subject := setting.slug
  params := reprStr params
  recovery := .rollBack
  steps := (works setting params).map fun work ↦ ⟨work.key⟩
  records := some ⟨setting.unit, setting.home⟩
  fits := by
    have hlength := length_works setting params
    rw [List.length_map]
    omega

/-- The snapshot of the home before the first step. A home Git cannot open takes none. -/
def recorded (id : OperationId) : Script Bool := do
  match ← call (Command.openRepository setting.home) with
  | .error _ => return false
  | .ok _ => ran (call (Command.snapshot (pre setting.unit (toString id))))

/-- What the steps of a reclaim do, by position. -/
def deeds (id : OperationId) (params : Params) : Deeds Command Command.Answer where
  snapshot := (recorded setting id).run
  apply position := ((works setting params)[position]?.elim (throw "no such step") Work.apply).run
  undo position := ((works setting params)[position]?.elim (throw "no such step") Work.undo).run

/-! ### The whole of it -/

/-- What a process of a reclaim does. -/
abbrev Doing : Type → Type := Attempt (Act Command) (Act.Answer Command.Answer) Error

/-- A script, as part of a process. -/
def performed {α : Type} (script : Script α) : Doing α :=
  ExceptT.mk (outside script.run >>= fun result ↦ .done (result.mapError Error.other))

/-- `reclaim`: refuse, run the hook, delete the refs, run the plan. -/
def reclaim (id : OperationId) : Doing Unit := do
  let prepared ← performed (claimed setting)
  performed (ran (call (Command.hook .preReclaim)))
  let tethers ← performed (ran (call Command.tethers))
  let params := { prepared with tethers }
  performed (pruneRefs setting)
  let _ ← operated (deeds setting id params) (run id (plan setting params))
  performed (ran (call (Command.hook .postReclaim)))

/-! ### Runs -/

/-- What a process was called for. -/
inductive Job
  | reclaim (id : OperationId)
  | rollBack (id : OperationId) (params : Params)
  | write

/-- How the commands of a reclaim are performed. The registry is not on the machine's disk. -/
def performance : Performance Command Site Command.Answer Command.Choice where
  act := perform setting
  register _ _ s := .ok (nothing, s)

/-- The program of a job, which ends with whether it answered without an error. -/
def programOf : Job → Program (Act Command) (Act.Answer Command.Answer) Bool
  | .reclaim id => (reclaim setting id).run >>= fun result ↦ .done result.toBool
  | .rollBack id params =>
    (operated (deeds setting id params) (Lifecycle.rollBack id (plan setting params))).run >>=
      fun result ↦ .done result.toBool
  | .write => .perform (.outside .write) fun _ ↦ .done true

/-- A run whose row is open and whose process is gone, with what its plan is rebuilt from. -/
def isGone (id : OperationId) (params : Params) (w : Lifecycle.World) : Bool :=
  (w.journal.operations.get? id).any fun row ↦
    row.state = .running && row.params = (plan setting params).params &&
      w.processes.all fun process ↦ process.owner ≠ row.owner

/-- A process enters. One reclaim is begun, and its run is taken over when its process has gone. -/
def enter (process : Process) (job : Job) (w : Performed Site) : Option (Performed Site) :=
  if w.journal.admits process then
    let journal := { w.journal with
      processes := process :: w.journal.processes, past := process :: w.journal.past }
    match job with
    | .reclaim id =>
      if w.outside.turn = .before ∧ id ∉ w.journal.named ∧
          w.journal.journal.operations.get? id = none then
        some ⟨{ journal with named := id :: w.journal.named },
          { w.outside with turn := .of process }⟩
      else none
    | .rollBack id params =>
      if w.outside.turn = .over ∧ isGone setting id params w.journal then some { w with journal }
      else none
    | .write => some { w with journal }
  else none

/-- A process leaves. -/
def leave (process : Process) (w : Performed Site) : Performed Site where
  journal := depart process w.journal
  outside := if w.outside.turn = .of process then { w.outside with turn := .over } else w.outside

/-- The processes over one machine. -/
def machine : Machine Process Job (Performed Site) (Act Command) (Act.Answer Command.Answer)
    (Act.Choice Command.Choice) Bool where
  program _ := programOf setting
  enter := enter setting
  leave := leave
  perform := (performance setting).perform

/-- The journal and the machine, and what each live process has left to do. -/
abbrev Stage : Type :=
  Config Process (Performed Site) (Act Command) (Act.Answer Command.Answer) Bool

/-- One step of a history. -/
abbrev Happening : Type := Label Process Job (Act Command) (Act.Choice Command.Choice)

end Nodal.Reclaim
