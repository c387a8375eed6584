import Mathlib.Algebra.GroupWithZero.Nat
import Mathlib.Data.List.Sort
import Nodal.Foundation.Machine
import Nodal.Services.Registry

/-!
# The port allocator

`services/ports.rs`: a block per project, a port per name, and who holds a fixed one. A call is a
program over the statements it makes; nothing holds between two of them but what the tables enforce.
Giving a project its block is one transaction, and counts as one statement.

Beside the registry the world keeps what has happened since each call began, which no statement
reads. It is what "was held" and "before a release" are said of.
-/

set_option autoImplicit false

namespace Nodal.Services

open Foundation Foundation.Attempt

/-- The lowest port any block starts at. -/
def RANGE_FIRST : ℕ := 20000

/-- The highest port any block covers. -/
def RANGE_LAST : ℕ := 29999

/-- How many ports one project's block holds. -/
def BLOCK_SPAN : ℕ := 100

/-- How many times a fixed-port claim is retried when the holder lets go between the refusal and the
read that says who held it. -/
def CLAIM_ATTEMPTS : ℕ := 3

/-- The kind a port's resource key carries in the lease table. -/
def RESOURCE_KIND : String := "port:"

/-! ### A block for a project -/

/-- The sum of two `u16`s, where it is one. -/
def add16 (a b : ℕ) : Except Error ℕ :=
  if a + b < 2 ^ 16 then .ok (a + b) else .error .overflow

theorem add16_eq_ok {a b c : ℕ} : add16 a b = .ok c ↔ a + b < 2 ^ 16 ∧ a + b = c := by
  unfold add16
  split <;> grind

/-- The lowest block from a port on that starts at none of the ports taken. -/
def freeFrom (starts : List ℕ) (project : ProjectId) (first : ℕ) : Except Error PortBlock :=
  if first + BLOCK_SPAN - 1 ≤ RANGE_LAST then
    -- the end of this block and the start of the next are one sum
    match h : add16 first BLOCK_SPAN with
    | .error error => .error error
    | .ok next =>
      if first ∉ starts then .ok ⟨project, first, next - 1⟩ else freeFrom starts project next
  else .error (.portBlockRangeFull RANGE_FIRST RANGE_LAST)
termination_by RANGE_LAST - first
decreasing_by
  have hnext := (add16_eq_ok.mp h).2
  unfold BLOCK_SPAN at *
  omega

/-- The lowest block in the range that no project holds. -/
def freeBlock (taken : List PortBlock) (project : ProjectId) : Except Error PortBlock :=
  freeFrom (taken.map PortBlock.first) project RANGE_FIRST

/-- The transaction that gives a project its block: read it again, and insert one if it is not
there. -/
def Registry.assignBlock (registry : Registry) (project : ProjectId) :
    Except Error PortBlock × Registry :=
  match registry.blocks.get project with
  | some block => (.ok block, registry)
  | none => match freeBlock registry.blocks.rows project with
    | .error error => (.error error, registry)
    | .ok block => match registry.blocks.insert block with
      | .error error => (.error error, registry)
      | .ok blocks => (.ok block, { registry with blocks })

/-! ### Statements -/

/-- The statements of a call. -/
inductive Effect
  | getBlock (project : ProjectId)
  | assignBlock (project : ProjectId)
  | findByName (environment : EnvId) (name : PortName)
  | listInRange (first last : ℕ)
  | claim (allocation : PortAllocation)
  | listForEnvironment (environment : EnvId)
  | releaseAll (environment : EnvId)
  | listLeases (environment : EnvId)
  | acquire (resource : ResourceKey) (lease : Lease) (now : Instant)
  | getLease (resource : ResourceKey)
  | releaseLease (resource : ResourceKey) (holder : EnvId)
  | getEnvironment (environment : EnvId)
  | getUnit (unit : UnitId)
  deriving DecidableEq

/-- What a statement answers where it does not fail. -/
@[reducible] def Effect.Answer : Effect → Type
  | getBlock _ => Option PortBlock
  | assignBlock _ => Except Error PortBlock
  | findByName _ _ => Option PortAllocation
  | listInRange _ _ | listForEnvironment _ => List PortAllocation
  | claim _ | acquire _ _ _ | releaseLease _ _ => Bool
  | releaseAll _ => Unit
  | listLeases _ => List (ResourceKey × Lease)
  | getLease _ => Option Lease
  | getEnvironment _ => Option UnitId
  | getUnit _ => Option String

/-- What the rows of environments and units say, which are not tables of ports. -/
@[reducible] def Effect.Outside : Effect → Type
  | getEnvironment _ => Option UnitId
  | getUnit _ => Option String
  | _ => Unit

/-- What the outside decides of a statement: `none` where it fails. -/
abbrev Effect.Choice (effect : Effect) : Type := Option effect.Outside

/-- What a statement answers and does. -/
def statement : (effect : Effect) → effect.Outside → Registry → effect.Answer × Registry
  | .getBlock project, _, r => (r.blocks.get project, r)
  | .assignBlock project, _, r => r.assignBlock project
  | .findByName environment name, _, r => (r.allocations.findByName environment name, r)
  | .listInRange first last, _, r => (r.allocations.listInRange first last, r)
  | .claim allocation, _, r =>
    ((r.allocations.claim allocation).1,
      { r with allocations := (r.allocations.claim allocation).2 })
  | .listForEnvironment environment, _, r => (r.allocations.listForEnvironment environment, r)
  | .releaseAll environment, _, r =>
    ((), { r with allocations := r.allocations.releaseAll environment })
  | .listLeases environment, _, r => (Leases.listForEnvironment r.leases environment, r)
  | .acquire resource lease now, _, r =>
    ((Leases.acquire r.leases resource lease now).1,
      { r with leases := (Leases.acquire r.leases resource lease now).2 })
  | .getLease resource, _, r => (r.leases.get? resource, r)
  | .releaseLease resource holder, _, r =>
    ((Leases.release r.leases resource holder).1,
      { r with leases := (Leases.release r.leases resource holder).2 })
  | .getEnvironment _, row, r => (row, r)
  | .getUnit _, row, r => (row, r)

/-! ### Calls -/

/-- A statement answers, or it fails and changes nothing. -/
abbrev Effect.Answered (effect : Effect) : Type := Except Error effect.Answer

/-- What a call does. -/
abbrev Script : Type → Type := Attempt Effect Effect.Answered Error

/-- Make one statement. -/
def ask (effect : Effect) : Script effect.Answer :=
  ExceptT.mk (.perform effect .done)

theorem run_map {β γ : Type} (f : β → γ) (x : Script β) :
    (f <$> x).run = x.run >>= fun result ↦ .done (result.map f) := by
  change x.run >>= _ = _
  congr 1
  funext result
  cases result <;> rfl

/-- The block a project hands ports out from, giving it one if it has none. -/
def ensureBlock (project : ProjectId) : Script PortBlock := do
  match ← ask (.getBlock project) with
  | some block => return block
  | none => ExceptT.mk (pure (← ask (.assignBlock project)))

/-- The port an environment holds under one name. -/
def held (environment : EnvId) (name : PortName) : Script (Option ℕ) := do
  return (← ask (.findByName environment name)).map PortAllocation.port

/-- Claim the first of some ports that nobody holds. A refusal is also what a second grant under one
name meets, so the record has the last word. -/
def claimFirst (block : PortBlock) (environment : EnvId) (name : PortName) : List ℕ → Script ℕ
  | [] => do
    match ← held environment name with
    | some port => return port
    | none => throw (.portBlockFull environment block.first block.last)
  | port :: ports => do
    if ← ask (.claim ⟨⟨block.projectId, environment, name⟩, port⟩) then return port
    else claimFirst block environment name ports

/-- Grant one port, or report that the block is full. -/
def allocateOne (block : PortBlock) (environment : EnvId) (name : PortName) : Script ℕ := do
  match ← held environment name with
  | some port => return port
  | none =>
    let taken ← ask (.listInRange block.first block.last)
    claimFirst block environment name
      (block.ports.filter (· ∉ taken.map PortAllocation.port))

/-- The ports a call granted, by name. -/
abbrev Ports := Table PortName ℕ

/-- Grant a port for each name, beside what is granted already. -/
def allocateInto (block : PortBlock) (environment : EnvId) (granted : Ports) :
    List PortName → Script Ports
  | [] => return granted
  | name :: names => do
    let port ← allocateOne block environment name
    allocateInto block environment (granted.set name port) names

/-- Grant an environment one port for each name, and record every grant. -/
def allocate (block : PortBlock) (environment : EnvId) (names : List PortName) : Script Ports :=
  allocateInto block environment ∅ names

/-- The resource key a port is leased under. -/
def resource (port : ℕ) : ResourceKey :=
  RESOURCE_KIND ++ toString port

/-- The `u16` some characters spell, with or without a sign. -/
def parsePort (text : List Char) : Option ℕ :=
  let digits := if text.head? = some '+' then text.tail else text
  if digits ≠ [] ∧ digits.all Char.isDigit then
    let value := digits.foldl (fun value digit ↦ value * 10 + (digit.toNat - '0'.toNat)) 0
    if value < 2 ^ 16 then some value else none
  else none

/-- The port a resource key names, `none` when the key is not a port. -/
def portOf (resource : ResourceKey) : Option ℕ :=
  if RESOURCE_KIND.toList.isPrefixOf resource.toList then
    parsePort (resource.toList.drop RESOURCE_KIND.length)
  else none

/-- What reclaim gave back. -/
structure Released where
  allocated : List ℕ
  fixed : List ℕ
  deriving DecidableEq, Repr

/-- Give up each of some leases that is on a port. -/
def releaseEach (environment : EnvId) : List (ResourceKey × Lease) → Script (List ℕ)
  | [] => return []
  | (resource, _) :: leases => do
    match portOf resource with
    | none => releaseEach environment leases
    | some port =>
      let given ← ask (.releaseLease resource environment)
      let others ← releaseEach environment leases
      return if given then port :: others else others

/-- Give up every port lease an environment holds. -/
def releaseFixed (environment : EnvId) : Script (List ℕ) := do
  let released ← releaseEach environment (← ask (.listLeases environment))
  return released.insertionSort (· ≤ ·)

/-- Give back every port an environment holds: the block ports and the fixed leases. -/
def release (environment : EnvId) : Script Released := do
  let allocated ← ask (.listForEnvironment environment)
  ask (.releaseAll environment)
  return ⟨allocated.map PortAllocation.port, ← releaseFixed environment⟩

/-! ### Fixed ports -/

/-- A fixed port another environment holds, and the unit that environment belongs to. -/
structure FixedPortConflict where
  name : PortName
  port : ℕ
  unit : UnitId
  slug : String
  environment : EnvId
  expiresAt : Instant
  deriving DecidableEq, Repr

/-- The unit an environment materialises. -/
def unitBehind (environment : EnvId) : Script (UnitId × String) := do
  match ← ask (.getEnvironment environment) with
  | none => throw (.storeMissingRow "environment" environment.value)
  | some unit => match ← ask (.getUnit unit) with
    | none => throw (.storeMissingRow "unit" unit.value)
    | some slug => return (unit, slug)

/-- Who holds a fixed port, `none` when it is free, lapsed, or the claimant's own. -/
def holderOf (claimant : EnvId) (name : PortName) (port : ℕ) (now : Instant) :
    Script (Option FixedPortConflict) := do
  match ← ask (.getLease (resource port)) with
  | none => return none
  | some lease =>
    if lease.environmentId = claimant ∨ lease.expiresAt ≤ now then return none
    else
      let (unit, slug) ← unitBehind lease.environmentId
      return some ⟨name, port, unit, slug, lease.environmentId, lease.expiresAt⟩

/-- Take one fixed port, or say who holds it, in so many attempts. -/
def takeOne (claimant : EnvId) (name : PortName) (port : ℕ) (now expires : Instant) :
    ℕ → Script (Except FixedPortConflict ResourceKey)
  | 0 => throw (.portFixedContended port CLAIM_ATTEMPTS)
  | attempts + 1 => do
    if ← ask (.acquire (resource port) ⟨claimant, expires⟩ now) then return .ok (resource port)
    else match ← holderOf claimant name port now with
      | some conflict => return .error conflict
      | none => takeOne claimant name port now expires attempts

/-- Give back some keys. -/
def giveBack (claimant : EnvId) : List ResourceKey → Script Unit
  | [] => return ()
  | key :: keys => do
    let _ ← ask (.releaseLease key claimant)
    giveBack claimant keys

/-- Take every fixed port that is left, beside the keys taken so far, or give those back and say who
holds one. -/
def holdEach (claimant : EnvId) (now expires : Instant) (taken : List ResourceKey) :
    List (PortName × ℕ) → Script (Option FixedPortConflict)
  | [] => return none
  | (name, port) :: fixed => do
    match ← takeOne claimant name port now expires CLAIM_ATTEMPTS with
    | .ok key => holdEach claimant now expires (taken ++ [key]) fixed
    | .error conflict =>
      giveBack claimant taken
      return some conflict

/-- Take every fixed port for the claimant, or take none and say who holds one. -/
def holdFixed (claimant : EnvId) (fixed : Ports) (now expires : Instant) :
    Script (Option FixedPortConflict) :=
  holdEach claimant now expires [] fixed.rows

/-! ### The machine -/

/-- A call, with what it is asked. -/
inductive Call
  | ensureBlock (project : ProjectId)
  | allocate (block : PortBlock) (environment : EnvId) (names : List PortName)
  | release (environment : EnvId)
  | holdFixed (claimant : EnvId) (fixed : Ports) (now expires : Instant)
  | acquire (resource : ResourceKey) (lease : Lease) (now : Instant)
  | releaseLease (resource : ResourceKey) (holder : EnvId)
  deriving DecidableEq

/-- What a call answers. -/
inductive Answer
  | block (block : PortBlock)
  | ports (granted : Ports)
  | released (released : Released)
  | fixed (conflict : Option FixedPortConflict)
  | lease (done : Bool)
  deriving DecidableEq

/-- The program of a call. -/
def Call.run : Call → Script Answer
  | .ensureBlock project => Answer.block <$> Services.ensureBlock project
  | .allocate block environment names => Answer.ports <$> Services.allocate block environment names
  | .release environment => Answer.released <$> Services.release environment
  | .holdFixed claimant fixed now expires =>
    Answer.fixed <$> Services.holdFixed claimant fixed now expires
  | .acquire resource lease now => Answer.lease <$> ask (.acquire resource lease now)
  | .releaseLease resource holder => Answer.lease <$> ask (.releaseLease resource holder)

/-- What has happened since a call began. -/
structure Since where
  /-- The ports that some row has held. -/
  held : List ℕ := []
  /-- The names under which a claim of its own was refused though its port was free, and which it has
  not read since. -/
  refused : List (EnvId × PortName) := []
  /-- Whether a release has taken back the ports of an environment under such a name. -/
  crossed : Bool := false
  /-- The environments whose ports were given back. -/
  released : List EnvId := []
  /-- How many of its acquisitions in a row were refused. -/
  refusals : ℕ := 0
  deriving DecidableEq, Repr

/-- The tables, and what has happened since each call began. -/
structure World (ι : Type) where
  registry : Registry
  since : ι → Since

/-- The ports some row holds. -/
def Registry.heldPorts (registry : Registry) : List ℕ :=
  registry.allocations.list.map PortAllocation.port

/-- What a statement of any call adds to what has happened. -/
def Since.note (since : Since) (effect : Effect) (after : Registry) : Since :=
  { since with
    held := after.heldPorts ++ since.held
    crossed := since.crossed || match effect with
      | .releaseAll environment => since.refused.any (·.1 = environment)
      | _ => false
    released := match effect with
      | .releaseAll environment => environment :: since.released
      | _ => since.released }

/-- What a statement of the call itself adds: a claim that a name refuses is noted until the name is
read again, and a lease that is refused until one is taken. -/
def Since.noteOwn (since : Since) (effect : Effect) (before : Registry) : Since :=
  { since with
    refused := match effect with
      | .claim allocation =>
        if before.allocations.table.get? allocation.port = none ∧
            (before.allocations.findByName allocation.environmentId allocation.name).isSome then
          (allocation.environmentId, allocation.name) :: since.refused
        else since.refused
      | .findByName environment name => since.refused.filter (· ≠ (environment, name))
      | _ => since.refused
    refusals := match effect with
      | .acquire resource lease now =>
        if (Leases.acquire before.leases resource lease now).1 then 0 else since.refusals + 1
      | _ => since.refusals }

/-- What one statement answers and does. A call whose statement fails is over. -/
def perform {ι : Type} [DecidableEq ι] (i : ι) (effect : Effect) :
    effect.Choice → World ι → effect.Answered × World ι
  | none, w =>
    (.error .store,
      { w with since := Function.update w.since i { w.since i with refused := [] } })
  | some outside, w =>
    let (answer, registry) := statement effect outside w.registry
    (.ok answer,
      { registry
        since := fun j ↦
          let since := (w.since j).note effect registry
          if j = i then since.noteOwn effect w.registry else since })

/-- Whether a call may be made: ports are asked for from a block that `ensureBlock` answered, for an
environment of the block's project. -/
def Call.Asked (project : EnvId → ProjectId) (registry : Registry) : Call → Prop
  | .allocate block environment _ =>
    block ∈ registry.blocks.rows ∧ block.projectId = project environment
  | _ => True

instance (project : EnvId → ProjectId) (registry : Registry) (call : Call) :
    Decidable (call.Asked project registry) := by
  unfold Call.Asked
  split <;> infer_instance

/-- Any number of calls over one registry. -/
def machine (ι : Type) [DecidableEq ι] (project : EnvId → ProjectId) :
    Machine ι Call (World ι) Effect Effect.Answered Effect.Choice (Call × Except Error Answer) where
  program _ call := call.run.run >>= fun result ↦ pure (call, result)
  enter i call w :=
    if call.Asked project w.registry then
      some { w with since := Function.update w.since i { held := w.registry.heldPorts } }
    else none
  leave i w := { w with since := Function.update w.since i { w.since i with refused := [] } }
  perform := perform

/-- Calls, and what each has left to do. -/
abbrev Calls (ι : Type) : Type :=
  Config ι (World ι) Effect Effect.Answered (Call × Except Error Answer)

/-- One step of a run. -/
abbrev Step (ι : Type) : Type :=
  Label ι Call Effect Effect.Choice

/-- Nobody has made a call on a registry. -/
def Calls.on {ι : Type} (registry : Registry) : Calls ι :=
  ⟨⟨registry, fun _ ↦ {}⟩, fun _ ↦ none⟩

/-! ### A statement that answers -/

/-- A statement that does not fail. -/
def answers : (effect : Effect) → effect.Choice
  | .getEnvironment _ | .getUnit _ => some none
  | .getBlock _ | .assignBlock _ | .findByName _ _ | .listInRange _ _ | .claim _
  | .listForEnvironment _ | .releaseAll _ | .listLeases _ | .acquire _ _ _ | .getLease _
  | .releaseLease _ _ => some ()

end Nodal.Services
