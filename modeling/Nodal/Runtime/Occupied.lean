import Mathlib.Data.List.Basic
import Mathlib.Tactic.Common

/-!
# What stands in a home

`lifecycle/assess.rs`, `runtime/processes.rs`: one reading of the process table, sorted for one unit into
the processes that are its own and the ones that stand in its home and are not its to signal. A process
this account may not read is judged by where it came from, and only by that.
-/

set_option autoImplicit false

namespace Nodal.Runtime

/-- A path, by its components. -/
abbrev Place := List String

/-- Where a process came from: what started it, and which group it is in. -/
structure Lineage where
  parent : Option ℕ
  group : Option ℕ
  deriving DecidableEq, Repr

/-- Why a process was not shown in full. -/
inductive Withheld
  | anotherAccount
  | restricted
  deriving DecidableEq, Repr

/-- One process, with what a scan keeps about it. -/
structure Running where
  pid : ℕ
  /-- The unit its `NODAL_ID` names. -/
  carried : Option String
  cwd : Option Place
  command : Option String
  /-- The paths it holds in a way that would survive the directory being renamed under it. -/
  held : List Place
  lineage : Lineage
  withheld : Option Withheld
  deriving DecidableEq, Repr

/-- A process by its identifier and the instant it started. -/
structure Holding where
  pid : ℕ
  startedAt : Option ℕ
  deriving DecidableEq, Repr

/-- A unit, the process groups the registry recorded for it, and what those hang off. -/
structure Own where
  unit : String
  groups : List ℕ
  wrappers : List Holding
  deriving DecidableEq, Repr

/-- What the host says of a process now. -/
structure Host where
  groupOf : ℕ → Option ℕ
  parentOf : ℕ → Option ℕ
  startedAt : ℕ → Option ℕ

/-- What a refusal says about what stands in a home. -/
inductive Why
  | held (path : Place)
  | withheld
  deriving DecidableEq, Repr

/-- A process standing in a home. -/
structure Standing where
  pid : ℕ
  command : Option String
  why : Option Why
  deriving DecidableEq, Repr

variable (host : Host) (own : Own) (placed : List Place) (spared : List ℕ) (ended : ℕ → Bool)

/-- Whether a process is this unit's own. -/
def owns (process : Running) : Bool := process.carried = some own.unit

/-- Whether a process stands in one of these directories. -/
def inOneOf (process : Running) : Bool :=
  match process.cwd with
  | none => false
  | some cwd => placed.any fun home ↦ home.isPrefixOf cwd

/-- The first thing a process holds inside one of these homes. -/
def heldInside (process : Running) : Option Place :=
  process.held.find? fun held ↦ placed.any fun home ↦ home.isPrefixOf held

/-- Whether the process wearing this identifier now is the one the reading was taken of. -/
def isStill (pid : ℕ) (wrapper : Holding) : Bool :=
  pid = wrapper.pid ∧ wrapper.startedAt.isSome ∧ host.startedAt pid = wrapper.startedAt

/-- Whether a group the registry recorded vouches for this process. -/
def vouchedForByAGroup (process : Running) : Bool :=
  (host.groupOf process.pid).any (· ∈ own.groups) ||
    own.groups.any (fun leader ↦ host.parentOf leader = some process.pid) ||
    own.wrappers.any fun wrapper ↦ isStill host process.pid wrapper ||
      (host.parentOf process.pid).any (isStill host · wrapper)

/-- Whether this process is something standing in one of the unit's homes that it would never signal. -/
def bystander (process : Running) : Bool :=
  !owns own process && process.pid ∉ spared &&
    (inOneOf placed process || (heldInside placed process).isSome) &&
    !vouchedForByAGroup host own process

/-- How far a lineage is followed. -/
def LINEAGE : ℕ := 16

/-- Whether a parent chain reaches something inside, in so many steps and without walking in a circle. -/
def reachesInside (inside : List ℕ) (parentOf : ℕ → Option ℕ) : ℕ → List ℕ → Option ℕ → Bool
  | 0, _, _ => false
  | steps + 1, walked, at' => match at'.filter (1 < ·) with
    | none => false
    | some pid =>
      if pid ∈ inside then true
      else if pid ∈ walked then false
      else reachesInside inside parentOf steps (pid :: walked) (parentOf pid)

/-- Whether a process's lineage says it was started from inside the home. -/
def descendsFrom (inside byCwd : List ℕ) (running : List Running) (process : Running) : Bool :=
  if process.lineage.group.any (· ∈ byCwd) then true
  else reachesInside inside
    (fun pid ↦ ((running.reverse.find? (·.pid = pid)).map Running.lineage).bind Lineage.parent) LINEAGE
    [process.pid] process.lineage.parent

/-- The processes of a table that stand in the home, as far as this account can read them. -/
def standingIn (running : List Running) : List Running :=
  running.filter fun process ↦
    !owns own process && bystander host own placed spared process && !ended process.pid

def Standing.of (process : Running) : Standing :=
  ⟨process.pid, process.command, (heldInside placed process).map .held⟩

/-- The processes this account could not read that a reading of the home cannot rule out. -/
def withheldIn (running : List Running) : List Standing :=
  let standing := standingIn host own placed spared ended running
  if standing = [] then []
  else
    (running.filter fun process ↦ process.withheld = some .anotherAccount ∧ process.pid ∉ spared ∧
      ended process.pid = false ∧
      descendsFrom (standing.map Running.pid) ((standing.filter (inOneOf placed)).map Running.pid)
        running process).map fun process ↦ ⟨process.pid, process.command, some .withheld⟩

/-- Sort a reading of the table into what the unit may signal and what stands in its homes. -/
def sort (running : List Running) : List ℕ × List Standing :=
  ((running.filter (owns own)).map Running.pid,
    (standingIn host own placed spared ended running).map (Standing.of placed) ++
      withheldIn host own placed spared ended running)

variable {host own placed spared ended} {running : List Running}

/-- Nothing is said to stand in a home where no process that has not ended is a bystander there. -/
theorem sort_standing_eq_nil_iff : (sort host own placed spared ended running).2 = [] ↔
    ∀ process ∈ running, bystander host own placed spared process = true → ended process.pid = true := by
  have howned (process : Running) (h : bystander host own placed spared process = true) :
      owns own process = false := by
    simp only [bystander, Bool.and_eq_true, Bool.not_eq_true'] at h
    exact h.1.1.1
  have hstanding : standingIn host own placed spared ended running = [] ↔
      ∀ process ∈ running, bystander host own placed spared process = true →
        ended process.pid = true := by
    unfold standingIn
    rw [List.filter_eq_nil_iff]
    refine forall₂_congr fun process _ ↦ ?_
    constructor
    · intro hnot hbystander
      simpa [hbystander, howned process hbystander] using hnot
    · intro hended hkept
      simp only [Bool.and_eq_true, Bool.not_eq_true'] at hkept
      simp [hended hkept.1.2] at hkept
  rw [← hstanding]
  constructor
  · intro h
    exact List.map_eq_nil_iff.mp (List.append_eq_nil_iff.mp h).1
  · intro h
    simp [sort, withheldIn, h]

end Nodal.Runtime
