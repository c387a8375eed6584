import Nodal.Foundation.Table
import Nodal.Model.Scalar
import Nodal.Removal.Exact

/-!
# Sessions, derived from the process table

`runtime/sessions.rs`: a scan of the process table becomes the processes that are inside a unit
(`derive`), each of those is put in the environment whose home it names (`resolve`), and the rows of
the registry follow them (`reconcile`): a row is opened for each that no open row covers, and the open
rows of this host whose process is gone are ended.

The host of an environment is asked for where a row is ended and not where one is opened. So the rows
follow the processes exactly when the ones a row is opened for are in environments of this host, each
once (`follows_iff`).
-/

set_option autoImplicit false

namespace Nodal.Runtime.Sessions

open Foundation Model

/-- The identifier of a unit, by the number its ULID is. -/
abbrev UnitId := ℕ

abbrev EnvId := ℕ

abbrev SessionId := ℕ

abbrev Timestamp := ℤ

/-! ### Who is running -/

inductive ActorKind
  | human
  | agent
  deriving DecidableEq

structure Actor where
  kind : ActorKind
  name : Scalar LINE
  deriving DecidableEq

/-- A text the model does not accept. -/
inductive InvalidValue
  | actorName
  deriving DecidableEq

/-- The variable that names the actor outright. -/
def OVERRIDE : Text := "NODAL_ACTOR".toList

/-- The variable a shell leaves that names the person. -/
def USER : Text := "USER".toList

/-- What an actor is called when nothing at all says. -/
def UNKNOWN : Text := "unknown".toList

/-- The variables agents set, and the name each of those agents is known by. -/
def SIGNALS : List (Text × Text) :=
  [("CLAUDECODE".toList, "claude-code".toList),
    ("CLAUDE_CODE_ENTRYPOINT".toList, "claude-code".toList),
    ("CODEX_SANDBOX".toList, "codex".toList),
    ("CURSOR_AGENT".toList, "cursor".toList),
    ("AIDER_MODEL".toList, "aider".toList)]

/-- A name the model accepts, falling back rather than failing. -/
def nameOrUnknown (text : Text) : Except InvalidValue (Scalar LINE) :=
  match Scalar.parse text with
  | some name => .ok name
  | none =>
    match Scalar.parse UNKNOWN with
    | some name => .ok name
    | none => .error .actorName

/-- The actor a set of variables describes. -/
def fromVars (vars : Text → Option Text) : Except InvalidValue Actor :=
  let lookup (name : Text) := (vars name).filter (· ≠ [])
  match (lookup OVERRIDE).bind Scalar.parse with
  | some named => .ok ⟨.agent, named⟩
  | none =>
    match SIGNALS.find? fun signal ↦ (lookup signal.1).isSome with
    | some signal => (nameOrUnknown signal.2).map fun name ↦ ⟨.agent, name⟩
    | none => (nameOrUnknown ((lookup USER).getD UNKNOWN)).map fun name ↦ ⟨.human, name⟩

theorem nameOrUnknown_ok (text : Text) : ∃ name, nameOrUnknown text = .ok name := by
  have hunknown : Scalar.parse UNKNOWN = some (⟨UNKNOWN, rfl⟩ : Scalar LINE) :=
    Scalar.parse_text ⟨UNKNOWN, rfl⟩
  unfold nameOrUnknown
  rw [hunknown]
  cases (Scalar.parse text : Option (Scalar LINE)) with
  | some name => exact ⟨name, rfl⟩
  | none => exact ⟨⟨UNKNOWN, rfl⟩, rfl⟩

/-- Every set of variables describes an actor. -/
theorem fromVars_ok (vars : Text → Option Text) : ∃ actor, fromVars vars = .ok actor := by
  unfold fromVars
  dsimp only
  split
  · exact ⟨_, rfl⟩
  · split
    · next signal _ =>
      obtain ⟨name, hname⟩ := nameOrUnknown_ok signal.2
      exact ⟨⟨.agent, name⟩, by rw [hname]; rfl⟩
    · obtain ⟨name, hname⟩ := nameOrUnknown_ok (((vars USER).filter (· ≠ [])).getD UNKNOWN)
      exact ⟨⟨.human, name⟩, by rw [hname]; rfl⟩

/-! ### The scan -/

/-- The variable that names the unit a process is in. -/
def ID : Text := "NODAL_ID".toList

/-- The variable that names the home. -/
def ROOT : Text := "NODAL_ROOT".toList

/-- One process of a scan, with the variables that were kept. -/
structure Running where
  pid : ℕ
  vars : Text → Option Text

/-- One process seen inside a unit's home. -/
structure Attached where
  pid : ℕ
  unit : UnitId
  root : Text
  actor : Actor
  deriving DecidableEq

/-- The processes that are inside a unit. What reads an identifier is given. -/
def derive (parse : Text → Option UnitId) : List Running → Except InvalidValue (List Attached)
  | [] => .ok []
  | process :: rest =>
    match (process.vars ID).bind parse with
    | none => derive parse rest
    | some unit => do
      let actor ← fromVars process.vars
      let attached ← derive parse rest
      return ⟨process.pid, unit, (process.vars ROOT).getD [], actor⟩ :: attached

/-- Every scan is derived. -/
theorem derive_ok (parse : Text → Option UnitId) (running : List Running) :
    ∃ attached, derive parse running = .ok attached := by
  induction running with
  | nil => exact ⟨[], rfl⟩
  | cons process rest ih =>
    obtain ⟨attached, hrest⟩ := ih
    obtain ⟨actor, hactor⟩ := fromVars_ok process.vars
    unfold derive
    rw [hrest, hactor]
    split
    · exact ⟨attached, rfl⟩
    · exact ⟨_, rfl⟩

/-! ### The registry -/

/-- One materialisation of a unit. -/
structure Environment where
  unit : UnitId
  attempt : ℕ
  home : Text
  host : Text
  deriving DecidableEq

/-- An actor attached to an environment. -/
structure Session where
  environment : EnvId
  actor : Actor
  pid : Option ℕ
  pgid : Option ℕ
  startedAt : Timestamp
  endedAt : Option Timestamp
  deriving DecidableEq

/-- The two tables, by their primary keys. -/
structure Registry where
  environments : Table EnvId Environment
  sessions : Table SessionId Session
  deriving DecidableEq

/-- New ULIDs, none of which is one of those in use. -/
structure Ulids where
  next : List SessionId → SessionId
  fresh : ∀ ids, next ids ∉ ids

/-- Whether a row is of a process in an environment. -/
def Session.covers (row : Session) (environment : EnvId) (pid : ℕ) : Bool :=
  row.environment = environment ∧ row.pid = some pid

namespace Registry

variable (registry : Registry)

/-- Every materialisation of a unit, the first attempt first. -/
def listForUnit (unit : UnitId) : List (EnvId × Environment) :=
  (registry.environments.rows.filter fun row ↦ row.2.unit = unit).mergeSort
    fun row row' ↦ row.2.attempt ≤ row'.2.attempt

/-- Every session still open. -/
def listOpenAll : List (SessionId × Session) :=
  registry.sessions.rows.filter fun row ↦ row.2.endedAt = none

def insert (id : SessionId) (row : Session) : Registry :=
  { registry with sessions := registry.sessions.set id row }

/-- Record an actor detaching: only an open session is closed. -/
def endSession (id : SessionId) (now : Timestamp) : Bool × Registry :=
  ((registry.sessions.get? id).any fun row ↦ row.endedAt = none,
    { registry with sessions := registry.sessions.modify id fun row ↦
        if row.endedAt = none then { row with endedAt := some now } else row })

/-- Whether the environment a row belongs to is one of this host's. -/
def onHost (environment : EnvId) (host : Text) : Bool :=
  (registry.environments.get? environment).any fun row ↦ row.host = host

end Registry

/-! ### The reconciliation -/

/-- Which environment each seen process is in: the first materialisation of its unit that has the
home it names. -/
def resolve (registry : Registry) (attached : List Attached) : List (EnvId × Attached) :=
  attached.filterMap fun process ↦
    ((registry.listForUnit process.unit).find? fun row ↦
      Exact.components row.2.home = Exact.components process.root).map fun row ↦ (row.1, process)

/-- The row one seen process becomes. -/
def rowFor (environment : EnvId) (process : Attached) (now : Timestamp) : Session :=
  { environment, actor := process.actor, pid := some process.pid, pgid := none, startedAt := now
    endedAt := none }

/-- Whether this machine is the one that may close a row, on the strength of the scan. -/
def endsHere (registry : Registry) (host : Text) (live : List (EnvId × Attached)) (row : Session) :
    Bool :=
  row.pgid = none && !(live.any fun seen ↦ row.covers seen.1 seen.2.pid) &&
    registry.onHost row.environment host

/-- What one reconciliation changed. -/
structure Reconciled where
  opened : ℕ
  ended : ℕ
  deriving DecidableEq

variable (ulids : Ulids) (host : Text) (now : Timestamp)

/-- Open a row for each process that none of the open rows covers. -/
def openEach (rows : List (SessionId × Session)) : List (EnvId × Attached) → Registry → ℕ × Registry
  | [], registry => (0, registry)
  | (environment, process) :: rest, registry =>
    if rows.any fun row ↦ row.2.covers environment process.pid then openEach rows rest registry
    else
      let registry := registry.insert (ulids.next registry.sessions.keys)
        (rowFor environment process now)
      let (opened, registry) := openEach rows rest registry
      (opened + 1, registry)

/-- End each of the rows whose process is gone. -/
def endEach (live : List (EnvId × Attached)) : List (SessionId × Session) → Registry → ℕ × Registry
  | [], registry => (0, registry)
  | (id, row) :: rest, registry =>
    if endsHere registry host live row then
      let (closed, registry) := registry.endSession id now
      let (ended, registry) := endEach live rest registry
      (if closed then ended + 1 else ended, registry)
    else endEach live rest registry

/-- Open a row for each process that has none, and end each row whose process is gone. The rows are
read once, before the first is opened. -/
def reconcile (attached : List Attached) (registry : Registry) : Reconciled × Registry :=
  let live := resolve registry attached
  let rows := registry.listOpenAll
  let (opened, registry) := openEach ulids now rows live registry
  let (ended, registry) := endEach host now live rows registry
  (⟨opened, ended⟩, registry)

/-- Scan this machine and bring the registry's session rows up to date. -/
def observe (parse : Text → Option UnitId) (running : List Running) (registry : Registry) :
    Except InvalidValue (Reconciled × Registry) :=
  (derive parse running).map fun attached ↦ reconcile ulids host now attached registry

/-! ### What a reconciliation does to the rows -/

variable {ulids host now}

/-- The live processes none of the open rows covers. -/
def uncovered (rows : List (SessionId × Session)) (live : List (EnvId × Attached)) :
    List (EnvId × Attached) :=
  live.filter fun seen ↦ !(rows.any fun row ↦ row.2.covers seen.1 seen.2.pid)

/-- The rows that were opened: one each for some processes, in their order. -/
structure Opened (seen : List (EnvId × Attached)) (new : List (SessionId × Session))
    (before after : Registry) : Prop where
  pairs : new.map (fun row ↦ (row.2.environment, row.2.pid)) =
    seen.map fun process ↦ (process.1, some process.2.pid)
  nodup : (new.map Prod.fst).Nodup
  fresh : ∀ row ∈ new, before.sessions.get? row.1 = none
  shape : ∀ row ∈ new, row.2.pgid = none ∧ row.2.endedAt = none
  get?_iff : ∀ id row, after.sessions.get? id = some row ↔
    before.sessions.get? id = some row ∨ (id, row) ∈ new
  environments : after.environments = before.environments

/-- The rows a reconciliation opens are those of the processes no open row covered. -/
theorem openEach_opened (rows : List (SessionId × Session)) (live : List (EnvId × Attached))
    (registry : Registry) :
    ∃ new, Opened (uncovered rows live) new registry (openEach ulids now rows live registry).2 := by
  induction live generalizing registry with
  | nil =>
    refine ⟨[], rfl, List.nodup_nil, ?_, ?_, fun _ _ ↦ ?_, rfl⟩ <;> simp [openEach]
  | cons seen rest ih =>
    obtain ⟨environment, process⟩ := seen
    by_cases hcovered : (rows.any fun row ↦ row.2.covers environment process.pid) = true
    · have hstep : openEach ulids now rows ((environment, process) :: rest) registry =
          openEach ulids now rows rest registry := if_pos hcovered
      have hleft : uncovered rows ((environment, process) :: rest) = uncovered rows rest := by
        simp [uncovered, hcovered]
      rw [hstep, hleft]
      exact ih registry
    · obtain ⟨id, hid⟩ : ∃ id, id = ulids.next registry.sessions.keys := ⟨_, rfl⟩
      have hstep : (openEach ulids now rows ((environment, process) :: rest) registry).2 =
          (openEach ulids now rows rest
            (registry.insert id (rowFor environment process now))).2 := by
        subst hid
        simp [openEach, hcovered]
      have hleft : uncovered rows ((environment, process) :: rest) =
          (environment, process) :: uncovered rows rest := by
        simp [uncovered, hcovered]
      have hfresh : registry.sessions.get? id = none := by
        by_contra hin
        exact ulids.fresh registry.sessions.keys (hid ▸ Table.mem_keys_iff.mpr hin)
      obtain ⟨new, hnew⟩ := ih (registry.insert id (rowFor environment process now))
      have hset : ∀ other, (registry.insert id (rowFor environment process now)).sessions.get? other =
          if other = id then some (rowFor environment process now)
          else registry.sessions.get? other := fun other ↦ Table.get?_set
      have hothers : ∀ row ∈ new, row.1 ≠ id ∧ registry.sessions.get? row.1 = none := by
        intro row hrow
        have hnone := hnew.fresh row hrow
        rw [hset] at hnone
        split at hnone
        · cases hnone
        · exact ⟨‹_›, hnone⟩
      rw [hstep, hleft]
      refine ⟨(id, rowFor environment process now) :: new, ?_, ?_, ?_, ?_, ?_, hnew.environments⟩
      · rw [List.map_cons, List.map_cons, hnew.pairs]
        rfl
      · refine List.nodup_cons.mpr ⟨fun hin ↦ ?_, hnew.nodup⟩
        obtain ⟨row, hrow, heq⟩ := List.mem_map.mp hin
        exact (hothers row hrow).1 heq
      · intro row hrow
        rcases List.mem_cons.mp hrow with rfl | hrow
        · exact hfresh
        · exact (hothers row hrow).2
      · intro row hrow
        rcases List.mem_cons.mp hrow with rfl | hrow
        · exact ⟨rfl, rfl⟩
        · exact hnew.shape row hrow
      · intro other row
        rw [hnew.get?_iff, hset]
        by_cases hother : other = id
        · subst hother
          rw [if_pos rfl, hfresh, List.mem_cons]
          constructor
          · rintro (h | h)
            · exact Or.inr (Or.inl (by rw [Option.some.inj h]))
            · exact Or.inr (Or.inr h)
          · rintro (h | h | h)
            · cases h
            · exact Or.inl (by rw [(Prod.mk.inj h).2])
            · exact Or.inr h
        · rw [if_neg hother, List.mem_cons]
          have hne : (other, row) ≠ (id, rowFor environment process now) := fun h ↦
            hother (Prod.mk.inj h).1
          simp [hne]

/-- What a row becomes when it is ended. -/
def Session.ended (row : Session) (now : Timestamp) : Session :=
  if row.endedAt = none then { row with endedAt := some now } else row

theorem endsHere_congr {registry registry' : Registry} {live : List (EnvId × Attached)}
    (h : registry'.environments = registry.environments) (row : Session) :
    endsHere registry' host live row = endsHere registry host live row := by
  simp [endsHere, Registry.onHost, h]

/-- Assumes: rows with distinct identifiers. The ones that end here are ended in the registry, and
its other rows stay as they are. -/
theorem endEach_get? (live : List (EnvId × Attached)) {rows : List (SessionId × Session)}
    (hrows : (rows.map Prod.fst).Nodup) (registry : Registry) :
    (endEach host now live rows registry).2.environments = registry.environments ∧
    (∀ row ∈ rows, endsHere registry host live row.2 = true →
      (endEach host now live rows registry).2.sessions.get? row.1 =
        (registry.sessions.get? row.1).map (·.ended now)) ∧
    ∀ id, (∀ row ∈ rows, row.1 = id → endsHere registry host live row.2 = false) →
      (endEach host now live rows registry).2.sessions.get? id = registry.sessions.get? id := by
  induction rows generalizing registry with
  | nil => exact ⟨rfl, by simp, fun _ _ ↦ rfl⟩
  | cons first rest ih =>
    obtain ⟨id, row⟩ := first
    obtain ⟨hnot, hrest⟩ := List.nodup_cons.mp hrows
    have hapart : ∀ other ∈ rest, other.1 ≠ id := fun other hother heq ↦
      hnot (List.mem_map.mpr ⟨other, hother, heq⟩)
    by_cases hends : endsHere registry host live row = true
    · have hstep : (endEach host now live ((id, row) :: rest) registry).2 =
          (endEach host now live rest (registry.endSession id now).2).2 := by
        simp [endEach, hends]
      have henvironments : (registry.endSession id now).2.environments =
          registry.environments := rfl
      have hself : (registry.endSession id now).2.sessions.get? id =
          (registry.sessions.get? id).map (·.ended now) := Table.get?_modify_self
      have hother : ∀ other, other ≠ id → (registry.endSession id now).2.sessions.get? other =
          registry.sessions.get? other := fun other h ↦ Table.get?_modify_of_ne h
      obtain ⟨hkept, hended, hsame⟩ := ih hrest (registry.endSession id now).2
      simp only [endsHere_congr henvironments] at hended hsame
      rw [hstep]
      refine ⟨hkept, ?_, ?_⟩
      · intro other hin hother'
        rcases List.mem_cons.mp hin with rfl | hin
        · have hlast := hsame id fun later hlater heq ↦ absurd heq (hapart later hlater)
          exact hlast.trans hself
        · rw [hended other hin hother', hother other.1 (hapart other hin)]
      · intro other hstays
        have hne : other ≠ id := by
          rintro rfl
          have hfirst := hstays (other, row) List.mem_cons_self rfl
          rw [hends] at hfirst
          cases hfirst
        rw [hsame other fun later hlater ↦ hstays later (List.mem_cons_of_mem _ hlater),
          hother other hne]
    · have hstep : endEach host now live ((id, row) :: rest) registry =
          endEach host now live rest registry := if_neg hends
      obtain ⟨hkept, hended, hsame⟩ := ih hrest registry
      rw [hstep]
      refine ⟨hkept, ?_, ?_⟩
      · intro other hin hother
        rcases List.mem_cons.mp hin with rfl | hin
        · exact absurd hother hends
        · exact hended other hin hother
      · intro other hstays
        exact hsame other fun later hlater ↦ hstays later (List.mem_cons_of_mem _ hlater)

theorem mem_listOpenAll {registry : Registry} {row : SessionId × Session} :
    row ∈ registry.listOpenAll ↔
      registry.sessions.get? row.1 = some row.2 ∧ row.2.endedAt = none := by
  rw [Registry.listOpenAll, List.mem_filter, decide_eq_true_eq, ← Table.mem_rows_iff]

theorem nodup_listOpenAll (registry : Registry) : (registry.listOpenAll.map Prod.fst).Nodup := by
  refine List.Nodup.sublist (List.filter_sublist.map Prod.fst) ?_
  exact List.pairwise_map.mpr (registry.sessions.sorted.imp fun h ↦ h.ne)

/-- What a reconciliation makes of each row that was there, and the rows it opens. -/
theorem reconcile_get? (attached : List Attached) (registry : Registry) :
    ∃ new, Opened (uncovered registry.listOpenAll (resolve registry attached)) new registry
        (openEach ulids now registry.listOpenAll (resolve registry attached) registry).2 ∧
      (reconcile ulids host now attached registry).2.environments = registry.environments ∧
      (∀ id row, registry.sessions.get? id = some row →
        (reconcile ulids host now attached registry).2.sessions.get? id =
          some (if endsHere registry host (resolve registry attached) row then row.ended now
            else row)) ∧
      ∀ id row, registry.sessions.get? id = none →
        ((reconcile ulids host now attached registry).2.sessions.get? id = some row ↔
          (id, row) ∈ new) := by
  obtain ⟨new, hnew⟩ := @openEach_opened ulids now registry.listOpenAll
    (resolve registry attached) registry
  obtain ⟨hkept, hended, hsame⟩ := @endEach_get? host now
    (resolve registry attached) _ (nodup_listOpenAll registry)
    (openEach ulids now registry.listOpenAll (resolve registry attached) registry).2
  simp only [endsHere_congr hnew.environments] at hended hsame
  have hafter : (reconcile ulids host now attached registry).2 =
      (endEach host now (resolve registry attached) registry.listOpenAll
        (openEach ulids now registry.listOpenAll (resolve registry attached) registry).2).2 := rfl
  rw [hafter]
  refine ⟨new, hnew, hkept.trans hnew.environments, fun id row hrow ↦ ?_, fun id row hnone ↦ ?_⟩
  · have hmid := (hnew.get?_iff id row).mpr (Or.inl hrow)
    by_cases hopen : row.endedAt = none
    · by_cases hends : endsHere registry host (resolve registry attached) row = true
      · rw [if_pos hends, hended (id, row) (mem_listOpenAll.mpr ⟨hrow, hopen⟩) hends, hmid]
        rfl
      · rw [if_neg hends, hsame id, hmid]
        rintro ⟨other, row'⟩ hother rfl
        obtain rfl : row' = row := Option.some.inj ((mem_listOpenAll.mp hother).1.symm.trans hrow)
        exact eq_false_of_ne_true hends
    · have hstays : row.ended now = row := if_neg hopen
      rw [hstays, ite_self, hsame id, hmid]
      rintro ⟨other, row'⟩ hother rfl
      obtain rfl : row' = row := Option.some.inj ((mem_listOpenAll.mp hother).1.symm.trans hrow)
      exact absurd (mem_listOpenAll.mp hother).2 hopen
  · rw [hsame id, hnew.get?_iff, hnone]
    · simp
    · rintro ⟨other, row'⟩ hother rfl
      rw [(mem_listOpenAll.mp hother).1] at hnone
      cases hnone

/-! ### The rows follow the processes -/

/-- An open row without a group, of an environment of the host. -/
structure IsDerived (registry : Registry) (host : Text) (row : Session) : Prop where
  opened : row.endedAt = none
  groupless : row.pgid = none
  here : registry.onHost row.environment host = true

/-- After a reconciliation the derived rows of the host are the ones that covered a live process and
one for each live process that no open row covered. Rows with a group and rows of other hosts are as
they were. -/
structure Follows (host : Text) (live : List (EnvId × Attached)) (before after : Registry) :
    Prop where
  grouped : ∀ id row, row.pgid ≠ none →
    (after.sessions.get? id = some row ↔ before.sessions.get? id = some row)
  elsewhere : ∀ id row, before.onHost row.environment host = false →
    (after.sessions.get? id = some row ↔ before.sessions.get? id = some row)
  kept : ∀ id row, before.sessions.get? id = some row → IsDerived before host row →
    (∃ seen ∈ live, row.covers seen.1 seen.2.pid = true) → after.sessions.get? id = some row
  only : ∀ id row, after.sessions.get? id = some row → IsDerived before host row →
    (before.sessions.get? id = some row ∧ ∃ seen ∈ live, row.covers seen.1 seen.2.pid = true) ∨
    (before.sessions.get? id = none ∧
      ∃ seen ∈ uncovered before.listOpenAll live, row.covers seen.1 seen.2.pid = true)
  opened : ∀ seen ∈ uncovered before.listOpenAll live, ∃! id, ∃ row,
    after.sessions.get? id = some row ∧ before.sessions.get? id = none ∧
      IsDerived before host row ∧ row.covers seen.1 seen.2.pid = true

theorem covers_iff {row : Session} {environment : EnvId} {pid : ℕ} :
    row.covers environment pid = true ↔
      (row.environment, row.pid) = (environment, some pid) := by
  simp [Session.covers]

theorem endsHere_iff {registry : Registry} {live : List (EnvId × Attached)} {row : Session} :
    endsHere registry host live row = true ↔ row.pgid = none ∧
      (∀ seen ∈ live, row.covers seen.1 seen.2.pid = false) ∧
        registry.onHost row.environment host = true := by
  simp only [endsHere, Bool.and_eq_true, decide_eq_true_eq, Bool.not_eq_true', List.any_eq_false,
    Bool.not_eq_true, and_assoc]

theorem ended_of_opened {row : Session} : (row.ended now).endedAt ≠ none := by
  unfold Session.ended
  split
  · exact Option.some_ne_none now
  · assumption

namespace Opened

variable {seen : List (EnvId × Attached)} {new : List (SessionId × Session)}
  {before after : Registry}

/-- A row that was opened is of one of the processes. -/
theorem covers (h : Opened seen new before after) {row : SessionId × Session} (hrow : row ∈ new) :
    ∃ process ∈ seen, row.2.covers process.1 process.2.pid = true := by
  have hin : (row.2.environment, row.2.pid) ∈
      seen.map fun process ↦ (process.1, some process.2.pid) := by
    rw [← h.pairs]
    exact List.mem_map.mpr ⟨row, hrow, rfl⟩
  obtain ⟨process, hprocess, heq⟩ := List.mem_map.mp hin
  exact ⟨process, hprocess, covers_iff.mpr heq.symm⟩

/-- Each of the processes has a row that was opened. -/
theorem covered (h : Opened seen new before after) {process : EnvId × Attached}
    (hprocess : process ∈ seen) :
    ∃ row ∈ new, row.2.covers process.1 process.2.pid = true := by
  have hin : (process.1, some process.2.pid) ∈
      new.map fun row ↦ (row.2.environment, row.2.pid) := by
    rw [h.pairs]
    exact List.mem_map.mpr ⟨process, hprocess, rfl⟩
  obtain ⟨row, hrow, heq⟩ := List.mem_map.mp hin
  exact ⟨row, hrow, covers_iff.mpr heq⟩

/-- The processes are distinct exactly when the rows opened for them are of distinct ones. -/
theorem nodup_iff (h : Opened seen new before after) :
    (seen.map fun process ↦ (process.1, process.2.pid)).Nodup ↔
      (new.map fun row ↦ (row.2.environment, row.2.pid)).Nodup := by
  have hsome : (seen.map fun process ↦ (process.1, some process.2.pid)) =
      (seen.map fun process ↦ (process.1, process.2.pid)).map (Prod.map id some) := by
    rw [List.map_map]
    rfl
  have hinjective : Function.Injective (Prod.map (id : EnvId → EnvId) (some : ℕ → Option ℕ)) :=
    Function.injective_id.prodMap (Option.some_injective ℕ)
  rw [h.pairs, hsome, List.nodup_map_iff hinjective]

end Opened

/-- Assumes: every live process is covered by an open row. No row is opened. -/
theorem openEach_of_covered {rows : List (SessionId × Session)} {live : List (EnvId × Attached)}
    (h : ∀ seen ∈ live, (rows.any fun row ↦ row.2.covers seen.1 seen.2.pid) = true)
    (registry : Registry) : openEach ulids now rows live registry = (0, registry) := by
  induction live with
  | nil => rfl
  | cons seen rest ih =>
    have hfirst : openEach ulids now rows (seen :: rest) registry =
        openEach ulids now rows rest registry := if_pos (h seen List.mem_cons_self)
    rw [hfirst]
    exact ih fun other hother ↦ h other (List.mem_cons_of_mem _ hother)

/-- Assumes: none of the rows ends here. None is ended. -/
theorem endEach_of_stays {live : List (EnvId × Attached)} {rows : List (SessionId × Session)}
    {registry : Registry} (h : ∀ row ∈ rows, endsHere registry host live row.2 = false) :
    endEach host now live rows registry = (0, registry) := by
  induction rows with
  | nil => rfl
  | cons row rest ih =>
    have hfirst : endEach host now live (row :: rest) registry =
        endEach host now live rest registry :=
      if_neg (Bool.eq_false_iff.mp (h row List.mem_cons_self))
    rw [hfirst]
    exact ih fun other hother ↦ h other (List.mem_cons_of_mem _ hother)

theorem resolve_congr {registry registry' : Registry}
    (h : registry'.environments = registry.environments) (attached : List Attached) :
    resolve registry' attached = resolve registry attached := by
  simp [resolve, Registry.listForUnit, h]

/-- Reconciling the same scan again changes nothing. -/
theorem reconcile_again (ulids ulids' : Ulids) (host : Text) (now now' : Timestamp)
    (attached : List Attached) (registry : Registry) :
    reconcile ulids' host now' attached (reconcile ulids host now attached registry).2 =
      (⟨0, 0⟩, (reconcile ulids host now attached registry).2) := by
  obtain ⟨new, hnew, henvironments, hkept, hopened⟩ :=
    @reconcile_get? ulids host now attached registry
  obtain ⟨after, hafter⟩ : ∃ after, after = (reconcile ulids host now attached registry).2 :=
    ⟨_, rfl⟩
  rw [← hafter] at henvironments hkept hopened ⊢
  have hcovered : ∀ seen ∈ resolve registry attached,
      (after.listOpenAll.any fun row ↦ row.2.covers seen.1 seen.2.pid) = true := by
    intro seen hseen
    rw [List.any_eq_true]
    by_cases hold : (registry.listOpenAll.any fun row ↦ row.2.covers seen.1 seen.2.pid) = true
    · obtain ⟨⟨id, row⟩, hrow, hcovers⟩ := List.any_eq_true.mp hold
      obtain ⟨hget, hopen⟩ := mem_listOpenAll.mp hrow
      have hstays : ¬endsHere registry host (resolve registry attached) row = true := fun h ↦ by
        rw [(endsHere_iff.mp h).2.1 seen hseen] at hcovers
        cases hcovers
      have hlast := hkept id row hget
      rw [if_neg hstays] at hlast
      exact ⟨(id, row), mem_listOpenAll.mpr ⟨hlast, hopen⟩, hcovers⟩
    · obtain ⟨⟨id, row⟩, hrow, hcovers⟩ := hnew.covered
        (List.mem_filter.mpr ⟨hseen, by rw [eq_false_of_ne_true hold]; rfl⟩)
      exact ⟨(id, row), mem_listOpenAll.mpr
        ⟨(hopened id row (hnew.fresh _ hrow)).mpr hrow, (hnew.shape _ hrow).2⟩, hcovers⟩
  have hstays : ∀ row ∈ after.listOpenAll,
      endsHere after host (resolve registry attached) row.2 = false := by
    rintro ⟨id, row⟩ hrow
    obtain ⟨hget, hopen⟩ := mem_listOpenAll.mp hrow
    dsimp only at hget hopen
    rw [endsHere_congr henvironments]
    cases hbefore : registry.sessions.get? id with
    | some row' =>
      rw [hkept id row' hbefore] at hget
      split at hget
      · rw [← Option.some.inj hget] at hopen
        exact absurd hopen ended_of_opened
      · rw [← Option.some.inj hget]
        exact eq_false_of_ne_true ‹_›
    | none =>
      obtain ⟨seen, hseen, hcovers⟩ := hnew.covers ((hopened id row hbefore).mp hget)
      refine eq_false_of_ne_true fun h ↦ ?_
      rw [(endsHere_iff.mp h).2.1 seen (List.mem_filter.mp hseen).1] at hcovers
      cases hcovers
  unfold reconcile
  simp only [resolve_congr henvironments, openEach_of_covered hcovered, endEach_of_stays hstays]

/-- The rows follow the processes, and the same scan again changes nothing, exactly when the live
processes that no open row covers are each seen once and are in environments of this host. -/
theorem follows_iff (ulids : Ulids) (host : Text) (now : Timestamp) (parse : Text → Option UnitId)
    (running : List Running) (registry : Registry) :
    ∃ attached, derive parse running = .ok attached ∧
      observe ulids host now parse running registry =
        .ok (reconcile ulids host now attached registry) ∧
      (Follows host (resolve registry attached) registry
          (reconcile ulids host now attached registry).2 ∧
        (∀ ulids' now', reconcile ulids' host now' attached
            (reconcile ulids host now attached registry).2 =
          (⟨0, 0⟩, (reconcile ulids host now attached registry).2)) ↔
      ((uncovered registry.listOpenAll (resolve registry attached)).map fun seen ↦
          (seen.1, seen.2.pid)).Nodup ∧
        ∀ seen ∈ uncovered registry.listOpenAll (resolve registry attached),
          registry.onHost seen.1 host = true) := by
  obtain ⟨attached, hderive⟩ := derive_ok parse running
  refine ⟨attached, hderive, by rw [observe, hderive]; rfl, ?_⟩
  obtain ⟨new, hnew, _, hkept, hopened⟩ :=
    @reconcile_get? ulids host now attached registry
  generalize hafter : (reconcile ulids host now attached registry).2 = after at hkept hopened ⊢
  generalize hlive : resolve registry attached = live at hnew hkept ⊢
  constructor
  · rintro ⟨hfollows, _⟩
    have hhere : ∀ seen ∈ uncovered registry.listOpenAll live,
        registry.onHost seen.1 host = true := by
      intro seen hseen
      obtain ⟨id, ⟨row, _, _, hderived, hcovers⟩, _⟩ := hfollows.opened seen hseen
      have henvironment := (Prod.mk.inj (covers_iff.mp hcovers)).1
      rw [← henvironment]
      exact hderived.here
    refine ⟨hnew.nodup_iff.mpr (hnew.nodup.of_map.map_on ?_), hhere⟩
    rintro ⟨id, row⟩ hrow ⟨id', row'⟩ hrow' hpair
    obtain ⟨seen, hseen, hcovers⟩ := hnew.covers hrow
    have hcovers' : row'.covers seen.1 seen.2.pid = true :=
      covers_iff.mpr (hpair.symm.trans (covers_iff.mp hcovers))
    have hderived : ∀ {other}, other ∈ new → other.2.covers seen.1 seen.2.pid = true →
        IsDerived registry host other.2 := by
      intro other hother hcovers
      refine ⟨(hnew.shape other hother).2, (hnew.shape other hother).1, ?_⟩
      rw [(Prod.mk.inj (covers_iff.mp hcovers)).1]
      exact hhere seen hseen
    have hget := (hopened id row (hnew.fresh _ hrow)).mpr hrow
    have hget' := (hopened id' row' (hnew.fresh _ hrow')).mpr hrow'
    obtain rfl : id = id' := (hfollows.opened seen hseen).unique
      ⟨row, hget, hnew.fresh _ hrow, hderived hrow hcovers, hcovers⟩
      ⟨row', hget', hnew.fresh _ hrow', hderived hrow' hcovers', hcovers'⟩
    rw [Option.some.inj (hget.symm.trans hget')]
  · rintro ⟨hnodup, hhere⟩
    have hstays : ∀ {id row}, registry.sessions.get? id = some row →
        endsHere registry host live row = false → after.sessions.get? id = some row := by
      intro id row hrow hends
      rw [hkept id row hrow, hends]
      rfl
    -- a row of the registry afterwards is one that was there, or was ended, or was opened
    have hfrom : ∀ {id row}, after.sessions.get? id = some row →
        (registry.sessions.get? id = some row ∧ endsHere registry host live row = false) ∨
        (∃ row', registry.sessions.get? id = some row' ∧
          endsHere registry host live row' = true ∧ row = row'.ended now) ∨
        (registry.sessions.get? id = none ∧ (id, row) ∈ new) := by
      intro id row hrow
      cases hbefore : registry.sessions.get? id with
      | none => exact Or.inr (Or.inr ⟨rfl, (hopened id row hbefore).mp hrow⟩)
      | some row' =>
        rw [hkept id row' hbefore] at hrow
        split at hrow
        · exact Or.inr (Or.inl ⟨row', rfl, ‹_›, (Option.some.inj hrow).symm⟩)
        · rw [← Option.some.inj hrow]
          exact Or.inl ⟨rfl, eq_false_of_ne_true ‹_›⟩
    have hended : ∀ row : Session, (row.ended now).pgid = row.pgid ∧
        (row.ended now).environment = row.environment := by
      intro row
      unfold Session.ended
      split <;> exact ⟨rfl, rfl⟩
    have hnewhere : ∀ {id row}, (id, row) ∈ new →
        registry.onHost row.environment host = true := by
      intro id row hrow
      obtain ⟨seen, hseen, hcovers⟩ := hnew.covers hrow
      rw [(Prod.mk.inj (covers_iff.mp hcovers)).1]
      exact hhere seen hseen
    refine ⟨⟨?_, ?_, ?_, ?_, ?_⟩, fun ulids' now' ↦ ?_⟩
    · intro id row hgroup
      constructor
      · intro hrow
        rcases hfrom hrow with ⟨h, _⟩ | ⟨row', _, hends, rfl⟩ | ⟨_, h⟩
        · exact h
        · rw [(hended row').1] at hgroup
          exact absurd (endsHere_iff.mp hends).1 hgroup
        · exact absurd (hnew.shape _ h).1 hgroup
      · intro hrow
        exact hstays hrow (eq_false_of_ne_true fun h ↦ hgroup (endsHere_iff.mp h).1)
    · intro id row haway
      constructor
      · intro hrow
        rcases hfrom hrow with ⟨h, _⟩ | ⟨row', _, hends, rfl⟩ | ⟨_, h⟩
        · exact h
        · rw [(hended row').2, (endsHere_iff.mp hends).2.2] at haway
          cases haway
        · rw [hnewhere h] at haway
          cases haway
      · intro hrow
        refine hstays hrow (eq_false_of_ne_true fun h ↦ ?_)
        rw [(endsHere_iff.mp h).2.2] at haway
        cases haway
    · rintro id row hrow _ ⟨seen, hseen, hcovers⟩
      refine hstays hrow (eq_false_of_ne_true fun h ↦ ?_)
      rw [(endsHere_iff.mp h).2.1 seen hseen] at hcovers
      cases hcovers
    · intro id row hrow hderived
      rcases hfrom hrow with ⟨h, hends⟩ | ⟨row', _, _, rfl⟩ | ⟨hnone, h⟩
      · refine Or.inl ⟨h, ?_⟩
        by_contra hnone
        push Not at hnone
        rw [endsHere_iff.mpr ⟨hderived.groupless, fun seen hseen ↦
          eq_false_of_ne_true (hnone seen hseen), hderived.here⟩] at hends
        cases hends
      · exact absurd hderived.opened ended_of_opened
      · exact Or.inr ⟨hnone, hnew.covers h⟩
    · intro seen hseen
      obtain ⟨⟨id, row⟩, hrow, hcovers⟩ := hnew.covered hseen
      refine ⟨id, ⟨row, (hopened id row (hnew.fresh _ hrow)).mpr hrow, hnew.fresh _ hrow,
        ⟨(hnew.shape _ hrow).2, (hnew.shape _ hrow).1, hnewhere hrow⟩, hcovers⟩, ?_⟩
      rintro id' ⟨row', hrow', hnone, _, hcovers'⟩
      have hin := (hopened id' row' hnone).mp hrow'
      have hsame := List.inj_on_of_nodup_map (hnew.nodup_iff.mp hnodup) hin hrow
        ((covers_iff.mp hcovers').trans (covers_iff.mp hcovers).symm)
      exact congrArg Prod.fst hsame
    · rw [← hafter]
      exact reconcile_again ulids ulids' host now now' attached registry

/-- The unit of the laptop, which is materialised there and nowhere else. -/
def laptop : Registry where
  environments := ⟨[(1, ⟨1777027686520646174104517696511196507, 1, "/homes/one".toList,
    "laptop".toList⟩)], List.pairwise_singleton _ _⟩
  sessions := ∅

/-- A process that carries the unit and names its home. -/
def shell : Running where
  pid := 11
  vars name :=
    if name = ID then some "01ARZ3NDEKTSV4RRFFQ69G5FAV".toList
    else if name = ROOT then some "/homes/one".toList
    else none

/-- `UnitId::parse` on what the shell carries. -/
def parseShell (text : Text) : Option UnitId :=
  if text = "01ARZ3NDEKTSV4RRFFQ69G5FAV".toList then some 1777027686520646174104517696511196507
  else none

/-- Identifiers one after the other. -/
def counting : Ulids where
  next ids := ids.foldr max 0 + 1
  fresh ids hin := by
    have hle : ∀ (ids : List ℕ), ∀ id ∈ ids, id ≤ ids.foldr max 0 := by
      intro ids id hid
      induction ids with
      | nil => cases hid
      | cons first rest ih =>
        rcases List.mem_cons.mp hid with rfl | hid
        · exact Nat.le_max_left _ _
        · exact Nat.le_trans (ih hid) (Nat.le_max_right _ _)
    exact Nat.not_succ_le_self _ (hle ids _ hin)

/-- The shell, as the scan sees it. -/
def seenShell : Attached :=
  ⟨11, 1777027686520646174104517696511196507, "/homes/one".toList, ⟨.human, ⟨UNKNOWN, rfl⟩⟩⟩

/-- A shell on the desk that carries the unit of the laptop opens a row of the laptop's environment,
and the desk does not end it when the shell has gone. -/
theorem laptop_opened :
    derive parseShell [shell] = .ok [seenShell] ∧
      (reconcile counting "desk".toList 0 [seenShell] laptop).1 = ⟨1, 0⟩ ∧
      (reconcile counting "desk".toList 1 []
        (reconcile counting "desk".toList 0 [seenShell] laptop).2).1 = ⟨0, 0⟩ ∧
      ¬Follows "desk".toList (resolve laptop [seenShell]) laptop
        (reconcile counting "desk".toList 0 [seenShell] laptop).2 := by
  have hresolve : resolve laptop [seenShell] = [(1, seenShell)] := by
    simp [resolve, Registry.listForUnit, laptop, seenShell]
  have hopened : (reconcile counting "desk".toList 0 [seenShell] laptop) =
      (⟨1, 0⟩, laptop.insert 1 (rowFor 1 seenShell 0)) := by
    unfold reconcile
    rw [hresolve]
    rfl
  refine ⟨rfl, by rw [hopened], by rw [hopened]; rfl, fun hfollows ↦ ?_⟩
  rw [hresolve] at hfollows
  have hseen : (1, seenShell) ∈ uncovered laptop.listOpenAll [(1, seenShell)] :=
    List.mem_singleton.mpr rfl
  obtain ⟨id, ⟨row, _, _, hderived, hcovers⟩, _⟩ := hfollows.opened _ hseen
  have hhere := hderived.here
  rw [(Prod.mk.inj (covers_iff.mp hcovers)).1] at hhere
  exact absurd hhere (by decide)

end Nodal.Runtime.Sessions
