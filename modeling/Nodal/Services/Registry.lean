import Mathlib.Data.Int.Notation
import Mathlib.Data.List.Nodup
import Mathlib.Data.String.Basic
import Mathlib.Order.Nat
import Nodal.Foundation.Table

/-!
# The rows a port is recorded in

`store/port_blocks.rs`, `store/port_allocations.rs`, `store/leases.rs` and the tables of
`migrations/0003_ports.sql`. A statement is one function here. Each table carries what its keys and
its unique indexes enforce, so a registry in which two environments hold one port cannot be built.

A port is claimed by one `INSERT` that two constraints may refuse: the port is held, or the
environment already holds a port under that name. A lease is taken by one upsert whose `WHERE` lets a
lapsed row, or the claimant's own, be written over.
-/

set_option autoImplicit false

namespace Nodal.Services

open Foundation

/-! ### Rows -/

structure ProjectId where
  value : ℕ
  deriving DecidableEq, Repr

structure EnvId where
  value : ℕ
  deriving DecidableEq, Repr

structure UnitId where
  value : ℕ
  deriving DecidableEq, Repr

/-- What a recipe calls a port. -/
abbrev PortName := String

/-- Whole seconds since the epoch, as the columns hold them. -/
abbrev Instant := ℤ

/-- What a lease is on. -/
abbrev ResourceKey := String

/-- The range of ports one project hands out from. A port is a `u16`. -/
structure PortBlock where
  projectId : ProjectId
  first : ℕ
  last : ℕ
  deriving DecidableEq, Repr

/-- Whether a port is in this block. -/
def PortBlock.Contains (block : PortBlock) (port : ℕ) : Prop :=
  block.first ≤ port ∧ port ≤ block.last

/-- Every port in the block, lowest first. -/
def PortBlock.ports (block : PortBlock) : List ℕ :=
  List.range' block.first (block.last + 1 - block.first)

theorem PortBlock.mem_ports {block : PortBlock} {port : ℕ} :
    port ∈ block.ports ↔ block.Contains port := by
  simp only [ports, Contains, List.mem_range'_1]
  omega

/-- A row of `port_allocation` without its key: who holds the port, and under which name. -/
structure Grant where
  projectId : ProjectId
  environmentId : EnvId
  name : PortName
  deriving DecidableEq, Repr

/-- One port an environment holds. -/
structure PortAllocation extends Grant where
  port : ℕ
  deriving DecidableEq, Repr

/-- A row of `lease` without its key. -/
structure Lease where
  environmentId : EnvId
  expiresAt : Instant
  deriving DecidableEq, Repr

/-- How a statement, or a rule over the rows, fails. -/
inductive Error
  | store
  | storeConflict
  | storeMissingRow (table : String) (id : ℕ)
  | portBlockRangeFull (first last : ℕ)
  | portBlockFull (environment : EnvId) (first last : ℕ)
  | portFixedContended (port : ℕ) (attempts : ℕ)
  /-- An addition that does not fit its type. -/
  | overflow
  deriving DecidableEq, Repr

/-! ### `port_block` -/

/-- A project has one block, and no two blocks start at one port. -/
structure PortBlocks where
  rows : List PortBlock
  project : (rows.map PortBlock.projectId).Nodup
  first : (rows.map PortBlock.first).Nodup

namespace PortBlocks

variable (blocks : PortBlocks)

/-- A project's block. -/
def get (project : ProjectId) : Option PortBlock :=
  blocks.rows.find? (·.projectId = project)

/-- Give a project its block. -/
def insert (block : PortBlock) : Except Error PortBlocks :=
  if h : block.projectId ∉ blocks.rows.map PortBlock.projectId ∧
      block.first ∉ blocks.rows.map PortBlock.first then
    .ok
      { rows := block :: blocks.rows
        project := List.nodup_cons.mpr ⟨h.1, blocks.project⟩
        first := List.nodup_cons.mpr ⟨h.2, blocks.first⟩ }
  else .error .storeConflict

variable {blocks} {block other : PortBlock}

theorem eq_of_projectId (hblock : block ∈ blocks.rows) (hother : other ∈ blocks.rows)
    (h : block.projectId = other.projectId) : block = other :=
  List.inj_on_of_nodup_map blocks.project hblock hother h

theorem eq_of_first (hblock : block ∈ blocks.rows) (hother : other ∈ blocks.rows)
    (h : block.first = other.first) : block = other :=
  List.inj_on_of_nodup_map blocks.first hblock hother h

end PortBlocks

/-! ### `port_allocation` -/

/-- A port is held once, and an environment holds one port per name. -/
structure PortAllocations where
  table : Table ℕ Grant
  named : ∀ {port port' grant grant'}, table.get? port = some grant → table.get? port' = some grant' →
    grant.environmentId = grant'.environmentId → grant.name = grant'.name → port = port'

namespace PortAllocations

variable (allocations : PortAllocations)

/-- Every row. -/
def list : List PortAllocation :=
  allocations.table.rows.map fun row ↦ ⟨row.2, row.1⟩

/-- The port an environment holds under one name. -/
def findByName (environment : EnvId) (name : PortName) : Option PortAllocation :=
  allocations.list.find? fun row ↦ row.environmentId = environment ∧ row.name = name

/-- Every port held in a range, lowest first. -/
def listInRange (first last : ℕ) : List PortAllocation :=
  allocations.list.filter fun row ↦ first ≤ row.port ∧ row.port ≤ last

/-- Every port an environment holds, lowest first. -/
def listForEnvironment (environment : EnvId) : List PortAllocation :=
  allocations.list.filter (·.environmentId = environment)

variable {allocations} {allocation : PortAllocation} {environment : EnvId} {name : PortName}
  {port : ℕ} {grant : Grant}

theorem mem_list : allocation ∈ allocations.list ↔
    allocations.table.get? allocation.port = some allocation.toGrant := by
  rw [← Table.mem_rows_iff, list, List.mem_map]
  constructor
  · rintro ⟨row, hrow, rfl⟩
    exact hrow
  · exact fun h ↦ ⟨_, h, rfl⟩

theorem findByName_eq_some (h : allocations.findByName environment name = some allocation) :
    allocations.table.get? allocation.port = some allocation.toGrant ∧
      allocation.environmentId = environment ∧ allocation.name = name :=
  ⟨mem_list.mp (List.mem_of_find?_eq_some h), of_decide_eq_true (List.find?_some h :)⟩

theorem findByName_eq_none (h : allocations.findByName environment name = none)
    (hrow : allocations.table.get? port = some grant) (henvironment : grant.environmentId = environment) :
    grant.name ≠ name := by
  intro hname
  exact List.find?_eq_none.mp h ⟨grant, port⟩ (mem_list.mpr hrow)
    (decide_eq_true ⟨henvironment, hname⟩)

theorem mem_listInRange {first last : ℕ} : allocation ∈ allocations.listInRange first last ↔
    allocations.table.get? allocation.port = some allocation.toGrant ∧
      first ≤ allocation.port ∧ allocation.port ≤ last := by
  simp [listInRange, mem_list]

variable (allocations)

/-- Claim a port. `false` when an environment already holds it, or when this environment already
holds a port under that name. -/
def claim (allocation : PortAllocation) : Bool × PortAllocations :=
  if h : allocations.table.get? allocation.port = none ∧
      allocations.findByName allocation.environmentId allocation.name = none then
    (true,
      { table := allocations.table.set allocation.port allocation.toGrant
        named := by
          intro port port' grant grant' hport hport' henvironment hname
          rw [Table.get?_set] at hport hport'
          split at hport <;> split at hport'
          · simp_all
          · cases hport
            exact absurd hname.symm (findByName_eq_none h.2 hport' henvironment.symm)
          · cases hport'
            exact absurd hname (findByName_eq_none h.2 hport henvironment)
          · exact allocations.named hport hport' henvironment hname })
  else (false, allocations)

/-- Give back every port an environment holds. -/
def releaseAll (environment : EnvId) : PortAllocations where
  table := allocations.table.filter fun _ grant ↦ grant.environmentId ≠ environment
  named hport hport' :=
    allocations.named (Table.get?_filter_eq_some.mp hport).1 (Table.get?_filter_eq_some.mp hport').1

variable {allocations}

/-- A claim is made, or a row of the port refuses it, or a row of the name does. -/
theorem claim_cases (allocations : PortAllocations) (allocation : PortAllocation) :
    ((allocations.claim allocation).1 = true ∧
        (∀ port, (allocations.claim allocation).2.table.get? port =
          if port = allocation.port then some allocation.toGrant else allocations.table.get? port) ∧
        allocations.table.get? allocation.port = none) ∨
      allocations.claim allocation = (false, allocations) ∧
        ((allocations.table.get? allocation.port).isSome = true ∨
          (allocations.findByName allocation.environmentId allocation.name).isSome = true) := by
  unfold claim
  split
  · next h => exact .inl ⟨rfl, fun port ↦ Table.get?_set, h.1⟩
  · next h =>
    refine .inr ⟨rfl, ?_⟩
    rw [not_and_or, ← ne_eq, ← ne_eq, ← Option.isSome_iff_ne_none, ← Option.isSome_iff_ne_none] at h
    exact h

theorem get?_releaseAll : (allocations.releaseAll environment).table.get? port = some grant ↔
    allocations.table.get? port = some grant ∧ grant.environmentId ≠ environment := by
  rw [releaseAll, Table.get?_filter_eq_some, decide_eq_true_eq]

end PortAllocations

/-! ### `lease` -/

/-- Leases by resource. -/
abbrev Leases := Table ResourceKey Lease

namespace Leases

variable (leases : Leases)

/-- Take a lease, or take over one that has lapsed. `false` when another environment holds it and the
claim has not expired. -/
def acquire (resource : ResourceKey) (lease : Lease) (now : Instant) : Bool × Leases :=
  match leases.get? resource with
  | none => (true, leases.set resource lease)
  | some row =>
    if row.expiresAt ≤ now ∨ row.environmentId = lease.environmentId then
      (true, leases.set resource lease)
    else (false, leases)

/-- Give a resource back. Only the holder releases it. -/
def release (resource : ResourceKey) (holder : EnvId) : Bool × Leases :=
  match leases.get? resource with
  | none => (false, leases)
  | some row =>
    if row.environmentId = holder then (true, leases.filter fun key _ ↦ key ≠ resource)
    else (false, leases)

/-- A lease is taken, or another environment holds it and has not lapsed. -/
theorem acquire_cases (leases : Leases) (resource : ResourceKey) (lease : Lease) (now : Instant) :
    (leases.acquire resource lease now = (true, leases.set resource lease) ∧
        ∀ row, leases.get? resource = some row →
          row.expiresAt ≤ now ∨ row.environmentId = lease.environmentId) ∨
      ∃ row, leases.get? resource = some row ∧ now < row.expiresAt ∧
        row.environmentId ≠ lease.environmentId ∧ leases.acquire resource lease now = (false, leases) := by
  unfold acquire
  split
  · next hrow => exact .inl ⟨rfl, fun row h ↦ by rw [hrow] at h; cases h⟩
  · next row hrow =>
    split
    · next hyields => exact .inl ⟨rfl, fun row' h ↦ Option.some.inj (hrow.symm.trans h) ▸ hyields⟩
    · next hholds =>
      obtain ⟨hlive, hother⟩ := not_or.mp hholds
      exact .inr ⟨row, hrow, lt_of_not_ge hlive, hother, rfl⟩

/-- A release by the holder leaves nobody's row, and any other changes nothing. -/
theorem get?_release {leases : Leases} {resource key : ResourceKey} {holder : EnvId} :
    (leases.release resource holder).2.get? key =
      if key = resource then (leases.get? key).filter (·.environmentId ≠ holder)
      else leases.get? key := by
  unfold release
  split
  · next hrow =>
    split
    · next heq => rw [heq, hrow, Option.filter_none]
    · rfl
  · next row hrow =>
    split
    · next hholder =>
      rw [Table.get?_filter]
      by_cases heq : key = resource
      · subst heq
        simp [hrow, hholder, Option.filter_some]
      · cases leases.get? key <;> simp [heq, Option.filter_some]
    · next hother =>
      split
      · next heq => simp [heq, hrow, hother, Option.filter_some]
      · rfl

/-- Every lease an environment holds. -/
def listForEnvironment (environment : EnvId) : List (ResourceKey × Lease) :=
  leases.rows.filter (·.2.environmentId = environment)

end Leases

/-! ### The registry -/

/-- The tables of ports. -/
structure Registry where
  blocks : PortBlocks
  allocations : PortAllocations
  leases : Leases

/-- The leases of an environment. -/
def Registry.leasesOf (registry : Registry) (environment : EnvId) : Leases :=
  registry.leases.filter fun _ lease ↦ lease.environmentId = environment

/-- A registry nothing has been recorded in. -/
def Registry.fresh : Registry where
  blocks := ⟨[], .nil, .nil⟩
  allocations := ⟨∅, fun h ↦ by cases h⟩
  leases := ∅

end Nodal.Services
