import Nodal.Model.Scalar

/-!
# The recipe: what a project needs to be a working copy

`model/recipe.rs` and `recipe/merge.rs`: every key is optional, because one type carries a file a person
wrote, what was inferred from the project, and the merge of the two. A scalar is set where it is there,
and a list or a table where it is not empty.

The rule that a written key wins is applied field by field, so a merge does not depend on the order it
is done in. A recipe `Keeps` another where the other's keys are all there, and whatever is merged under
it later (`Keeps.merge`).
-/

set_option autoImplicit false

namespace Nodal.Recipes

open Foundation Model

/-! ### Scalars -/

abbrev CommandLine := Scalar LINE

abbrev EnvName := Scalar ENV_NAME

abbrev ToolName := Scalar TOKEN

abbrev ToolVersion := Scalar LINE

abbrev ServiceName := Scalar SLUG

abbrev PortName := Scalar TOKEN

/-- Values by their keys, in the order of the keys. -/
structure BTreeMap (shape : Text → Bool) (ν : Type) where
  rows : List (Scalar shape × ν)
  sorted : rows.Pairwise fun first later ↦ first.1.text < later.1.text
  deriving DecidableEq

namespace BTreeMap

variable {shape : Text → Bool} {ν : Type}

def empty : BTreeMap shape ν := ⟨[], List.Pairwise.nil⟩

theorem rows_inj {first second : BTreeMap shape ν} : first.rows = second.rows ↔ first = second := by
  refine ⟨fun h ↦ ?_, congrArg _⟩
  cases first
  cases second
  cases h
  rfl

end BTreeMap

section Insertion

variable {shape : Text → Bool} {ν : Type}

/-- The rows with a value under a key, in the order of the keys. -/
def put (key : Scalar shape) (value : ν) : List (Scalar shape × ν) → List (Scalar shape × ν)
  | [] => [(key, value)]
  | row :: rows =>
    if key.text < row.1.text then (key, value) :: row :: rows
    else if key.text = row.1.text then (key, value) :: rows
    else row :: put key value rows

theorem mem_put {key : Scalar shape} {value : ν} {rows : List (Scalar shape × ν)}
    {other : Scalar shape × ν} (h : other ∈ put key value rows) : other = (key, value) ∨ other ∈ rows := by
  induction rows with
  | nil => exact .inl (List.mem_singleton.mp h)
  | cons row rows ih =>
    rw [put] at h
    split_ifs at h
    · exact List.mem_cons.mp h
    · exact (List.mem_cons.mp h).imp_right (List.mem_cons_of_mem _)
    · rcases List.mem_cons.mp h with hrow | hlater
      · exact .inr (List.mem_cons.mpr (.inl hrow))
      · exact (ih hlater).imp_right (List.mem_cons_of_mem _)

/-- Texts are in a line. -/
theorem text_lt_of_not {first second : Text} (h : ¬first < second) (hne : first ≠ second) :
    second < first := by
  by_contra hsecond
  exact hne (@Std.Trichotomous.trichotomous Text (· < ·) _ first second h hsecond)

theorem put_sorted (key : Scalar shape) (value : ν) {rows : List (Scalar shape × ν)}
    (h : rows.Pairwise fun first later ↦ first.1.text < later.1.text) :
    (put key value rows).Pairwise fun first later ↦ first.1.text < later.1.text := by
  induction rows with
  | nil => exact List.pairwise_singleton _ _
  | cons row rows ih =>
    obtain ⟨hrow, hrows⟩ := List.pairwise_cons.mp h
    rw [put]
    split_ifs with hless hequal
    · refine List.pairwise_cons.mpr ⟨fun later hlater ↦ ?_, h⟩
      rcases List.mem_cons.mp hlater with rfl | hlater
      · exact hless
      · exact List.lt_trans hless (hrow later hlater)
    · refine List.pairwise_cons.mpr ⟨fun later hlater ↦ ?_, hrows⟩
      have hlater := hrow later hlater
      rwa [← hequal] at hlater
    · refine List.pairwise_cons.mpr ⟨fun later hlater ↦ ?_, ih hrows⟩
      rcases mem_put hlater with rfl | hlater
      · exact text_lt_of_not hless hequal
      · exact hrow later hlater

/-- A key past all others stands last. -/
theorem put_last {key : Scalar shape} {value : ν} {rows : List (Scalar shape × ν)}
    (h : ∀ row ∈ rows, row.1.text < key.text) : put key value rows = rows ++ [(key, value)] := by
  induction rows with
  | nil => rfl
  | cons row rows ih =>
    obtain ⟨hrow, hrows⟩ := List.forall_mem_cons.mp h
    have hnot : ¬key.text < row.1.text := fun hless ↦
      List.lt_irrefl row.1.text (List.lt_trans hrow hless)
    have hne : key.text ≠ row.1.text := by
      intro hequal
      rw [hequal] at hrow
      exact List.lt_irrefl _ hrow
    rw [put, if_neg hnot, if_neg hne, ih hrows, List.cons_append]

end Insertion

namespace BTreeMap

variable {shape : Text → Bool} {ν : Type}

def insert (map : BTreeMap shape ν) (key : Scalar shape) (value : ν) : BTreeMap shape ν :=
  ⟨put key value map.rows, put_sorted key value map.sorted⟩

/-- The map of rows that come one after the other. -/
def ofRows (rows : List (Scalar shape × ν)) : BTreeMap shape ν :=
  rows.foldl (fun map row ↦ map.insert row.1 row.2) empty

theorem foldl_insert (rows : List (Scalar shape × ν)) (map : BTreeMap shape ν)
    (h : (map.rows ++ rows).Pairwise fun first later ↦ first.1.text < later.1.text) :
    (rows.foldl (fun map row ↦ map.insert row.1 row.2) map).rows = map.rows ++ rows := by
  induction rows generalizing map with
  | nil => rw [List.append_nil, List.foldl_nil]
  | cons row rows ih =>
    have hless := (List.pairwise_append.mp h).2.2
    have hput : (map.insert row.1 row.2).rows = map.rows ++ [row] :=
      put_last fun other hother ↦ hless other hother row List.mem_cons_self
    have hsplit : map.rows ++ row :: rows = (map.insert row.1 row.2).rows ++ rows := by
      rw [hput, List.append_assoc, List.singleton_append]
    rw [hsplit] at h ⊢
    exact ih (map.insert row.1 row.2) h

theorem ofRows_rows (map : BTreeMap shape ν) : ofRows map.rows = map :=
  rows_inj.mp (foldl_insert map.rows empty map.sorted)

end BTreeMap

/-! ### Words -/

inductive Backend
  | native
  | devcontainer
  | nix
  deriving DecidableEq

inductive PackageManager
  | pnpm
  | yarn
  | npm
  | bun
  | cargo
  | uv
  | poetry
  | pip
  deriving DecidableEq

inductive TaskCache
  | turborepo
  | nx
  deriving DecidableEq

inductive MigrationTool
  | supabase
  | prisma
  | drizzle
  | alembic
  | unknown
  deriving DecidableEq

inductive DbKind
  | supabaseLocal
  | postgres
  deriving DecidableEq

/-! ### Sections -/

/-- The commands a project is driven by. -/
@[ext] structure Commands where
  dev : Option CommandLine
  build : Option CommandLine
  test : Option CommandLine
  lint : Option CommandLine
  typecheck : Option CommandLine
  migrate : Option CommandLine
  seed : Option CommandLine
  reset : Option CommandLine
  deriving DecidableEq

/-- The database a project develops against. A path is the text it is written as. -/
@[ext] structure Db where
  kind : Option DbKind
  tool : Option MigrationTool
  migrationsDir : Option Text
  urlVar : List EnvName
  fixedPorts : BTreeMap TOKEN (Fin (2 ^ 16))
  deriving DecidableEq

@[ext] structure Services where
  shared : List ServiceName
  perUnit : List ServiceName
  deriving DecidableEq

/-- The environment variables a unit's home needs. -/
@[ext] structure Env where
  requiredLocal : List EnvName
  generated : List EnvName
  secrets : List EnvName
  /-- The stand-in a generated name takes when no adapter answers it. -/
  standIn : BTreeMap ENV_NAME Text
  deriving DecidableEq

/-- What a base clone leaves out. -/
@[ext] structure BaseSpec where
  exclude : List Text
  invalidate : List Text
  deriving DecidableEq

@[ext] structure Hooks where
  preNew : Option CommandLine
  postNew : Option CommandLine
  preMerge : Option CommandLine
  postMerge : Option CommandLine
  preReclaim : Option CommandLine
  postReclaim : Option CommandLine
  deriving DecidableEq

@[ext] structure Sync where
  autoIrreversible : Option Bool
  deriving DecidableEq

@[ext] structure Reclaim where
  trashRetention : Option (Fin (2 ^ 32))
  deriving DecidableEq

@[ext] structure LockPolicy where
  idleHours : Option (Fin (2 ^ 32))
  deriving DecidableEq

/-- A project's recipe. -/
@[ext] structure Recipe where
  backend : Option Backend
  packageManager : List PackageManager
  packageManagerPin : Option ToolVersion
  monorepo : Option Bool
  taskCache : Option TaskCache
  dockerfile : Option Text
  compose : List Text
  toolchain : BTreeMap TOKEN ToolVersion
  commands : Commands
  db : Db
  services : Services
  env : Env
  base : BaseSpec
  hooks : Hooks
  sync : Sync
  reclaim : Reclaim
  lock : LockPolicy
  deriving DecidableEq

/-- Where commands run. -/
def Recipe.theBackend (recipe : Recipe) : Backend := recipe.backend.getD .native

/-- Whether the repository holds more than one package. -/
def Recipe.isMonorepo (recipe : Recipe) : Bool := recipe.monorepo.getD false

/-- The recipe with the defaults of the two keys that are always written. -/
def Recipe.stated (recipe : Recipe) : Recipe :=
  { recipe with backend := some recipe.theBackend, monorepo := some recipe.isMonorepo }

/-! ### Precedence -/

/-- Two values of one shape, the first of which wins where it is set. -/
class Merge (α : Type) where
  merge : α → α → α
  unset : α

export Merge (merge unset)

/-- What merging keeps to: nothing is the unit, the order of merging does not matter, and a value does
not change itself. -/
class LawfulMerge (α : Type) [Merge α] : Prop where
  assoc : ∀ first second third : α, merge (merge first second) third = merge first (merge second third)
  unset_merge : ∀ value : α, merge unset value = value
  merge_unset : ∀ value : α, merge value unset = value
  merge_self : ∀ value : α, merge value value = value

instance {α : Type} : Merge (Option α) := ⟨Option.or, none⟩

instance {α : Type} : Merge (List α) := ⟨fun first lower ↦ if first.isEmpty then lower else first, []⟩

instance {shape : Text → Bool} {ν : Type} : Merge (BTreeMap shape ν) :=
  ⟨fun first lower ↦ if first.rows.isEmpty then lower else first, .empty⟩

instance : Merge Commands where
  merge first lower := {
    dev := merge first.dev lower.dev
    build := merge first.build lower.build
    test := merge first.test lower.test
    lint := merge first.lint lower.lint
    typecheck := merge first.typecheck lower.typecheck
    migrate := merge first.migrate lower.migrate
    seed := merge first.seed lower.seed
    reset := merge first.reset lower.reset }
  unset := ⟨unset, unset, unset, unset, unset, unset, unset, unset⟩

instance : Merge Db where
  merge first lower := {
    kind := merge first.kind lower.kind
    tool := merge first.tool lower.tool
    migrationsDir := merge first.migrationsDir lower.migrationsDir
    urlVar := merge first.urlVar lower.urlVar
    fixedPorts := merge first.fixedPorts lower.fixedPorts }
  unset := ⟨unset, unset, unset, unset, unset⟩

instance : Merge Services where
  merge first lower := {
    shared := merge first.shared lower.shared
    perUnit := merge first.perUnit lower.perUnit }
  unset := ⟨unset, unset⟩

instance : Merge Env where
  merge first lower := {
    requiredLocal := merge first.requiredLocal lower.requiredLocal
    generated := merge first.generated lower.generated
    secrets := merge first.secrets lower.secrets
    standIn := merge first.standIn lower.standIn }
  unset := ⟨unset, unset, unset, unset⟩

instance : Merge BaseSpec where
  merge first lower := {
    exclude := merge first.exclude lower.exclude
    invalidate := merge first.invalidate lower.invalidate }
  unset := ⟨unset, unset⟩

instance : Merge Hooks where
  merge first lower := {
    preNew := merge first.preNew lower.preNew
    postNew := merge first.postNew lower.postNew
    preMerge := merge first.preMerge lower.preMerge
    postMerge := merge first.postMerge lower.postMerge
    preReclaim := merge first.preReclaim lower.preReclaim
    postReclaim := merge first.postReclaim lower.postReclaim }
  unset := ⟨unset, unset, unset, unset, unset, unset⟩

instance : Merge Sync where
  merge first lower := ⟨merge first.autoIrreversible lower.autoIrreversible⟩
  unset := ⟨unset⟩

instance : Merge Reclaim where
  merge first lower := ⟨merge first.trashRetention lower.trashRetention⟩
  unset := ⟨unset⟩

instance : Merge LockPolicy where
  merge first lower := ⟨merge first.idleHours lower.idleHours⟩
  unset := ⟨unset⟩

instance : Merge Recipe where
  merge first lower := {
    backend := merge first.backend lower.backend
    packageManager := merge first.packageManager lower.packageManager
    packageManagerPin := merge first.packageManagerPin lower.packageManagerPin
    monorepo := merge first.monorepo lower.monorepo
    taskCache := merge first.taskCache lower.taskCache
    dockerfile := merge first.dockerfile lower.dockerfile
    compose := merge first.compose lower.compose
    toolchain := merge first.toolchain lower.toolchain
    commands := merge first.commands lower.commands
    db := merge first.db lower.db
    services := merge first.services lower.services
    env := merge first.env lower.env
    base := merge first.base lower.base
    hooks := merge first.hooks lower.hooks
    sync := merge first.sync lower.sync
    reclaim := merge first.reclaim lower.reclaim
    lock := merge first.lock lower.lock }
  unset := ⟨unset, unset, unset, unset, unset, unset, unset, unset, unset, unset, unset, unset, unset,
    unset, unset, unset, unset⟩

/-! ### The laws of precedence -/

section Laws

open LawfulMerge

instance {α : Type} : LawfulMerge (Option α) where
  assoc _ _ _ := Option.or_assoc
  unset_merge _ := Option.none_or
  merge_unset _ := Option.or_none
  merge_self _ := Option.or_self

instance {α : Type} : LawfulMerge (List α) where
  assoc first second third := by
    cases first <;> rfl
  unset_merge value := rfl
  merge_unset value := by
    cases value <;> rfl
  merge_self value := by
    cases value <;> rfl

instance {shape : Text → Bool} {ν : Type} : LawfulMerge (BTreeMap shape ν) where
  assoc first second third := by
    simp only [merge]
    by_cases h : first.rows.isEmpty = true
    · simp [h]
    · simp [h]
  unset_merge value := rfl
  merge_unset value := by
    simp only [merge]
    split_ifs with h
    · exact BTreeMap.rows_inj.mp (List.isEmpty_iff.mp h).symm
    · rfl
  merge_self value := ite_self _

instance : LawfulMerge Commands where
  assoc first second third := by
    apply Commands.ext <;> exact assoc _ _ _
  unset_merge value := by
    apply Commands.ext <;> exact unset_merge _
  merge_unset value := by
    apply Commands.ext <;> exact merge_unset _
  merge_self value := by
    apply Commands.ext <;> exact merge_self _

instance : LawfulMerge Db where
  assoc first second third := by
    apply Db.ext <;> exact assoc _ _ _
  unset_merge value := by
    apply Db.ext <;> exact unset_merge _
  merge_unset value := by
    apply Db.ext <;> exact merge_unset _
  merge_self value := by
    apply Db.ext <;> exact merge_self _

instance : LawfulMerge Services where
  assoc first second third := by
    apply Services.ext <;> exact assoc _ _ _
  unset_merge value := by
    apply Services.ext <;> exact unset_merge _
  merge_unset value := by
    apply Services.ext <;> exact merge_unset _
  merge_self value := by
    apply Services.ext <;> exact merge_self _

instance : LawfulMerge Env where
  assoc first second third := by
    apply Env.ext <;> exact assoc _ _ _
  unset_merge value := by
    apply Env.ext <;> exact unset_merge _
  merge_unset value := by
    apply Env.ext <;> exact merge_unset _
  merge_self value := by
    apply Env.ext <;> exact merge_self _

instance : LawfulMerge BaseSpec where
  assoc first second third := by
    apply BaseSpec.ext <;> exact assoc _ _ _
  unset_merge value := by
    apply BaseSpec.ext <;> exact unset_merge _
  merge_unset value := by
    apply BaseSpec.ext <;> exact merge_unset _
  merge_self value := by
    apply BaseSpec.ext <;> exact merge_self _

instance : LawfulMerge Hooks where
  assoc first second third := by
    apply Hooks.ext <;> exact assoc _ _ _
  unset_merge value := by
    apply Hooks.ext <;> exact unset_merge _
  merge_unset value := by
    apply Hooks.ext <;> exact merge_unset _
  merge_self value := by
    apply Hooks.ext <;> exact merge_self _

instance : LawfulMerge Sync where
  assoc first second third := by
    apply Sync.ext
    exact assoc _ _ _
  unset_merge value := by
    apply Sync.ext
    exact unset_merge _
  merge_unset value := by
    apply Sync.ext
    exact merge_unset _
  merge_self value := by
    apply Sync.ext
    exact merge_self _

instance : LawfulMerge Reclaim where
  assoc first second third := by
    apply Reclaim.ext
    exact assoc _ _ _
  unset_merge value := by
    apply Reclaim.ext
    exact unset_merge _
  merge_unset value := by
    apply Reclaim.ext
    exact merge_unset _
  merge_self value := by
    apply Reclaim.ext
    exact merge_self _

instance : LawfulMerge LockPolicy where
  assoc first second third := by
    apply LockPolicy.ext
    exact assoc _ _ _
  unset_merge value := by
    apply LockPolicy.ext
    exact unset_merge _
  merge_unset value := by
    apply LockPolicy.ext
    exact merge_unset _
  merge_self value := by
    apply LockPolicy.ext
    exact merge_self _

instance : LawfulMerge Recipe where
  assoc first second third := by
    apply Recipe.ext <;> exact assoc _ _ _
  unset_merge value := by
    apply Recipe.ext <;> exact unset_merge _
  merge_unset value := by
    apply Recipe.ext <;> exact merge_unset _
  merge_self value := by
    apply Recipe.ext <;> exact merge_self _

/-- Everything the first says, the second says as well. -/
def Keeps {α : Type} [Merge α] (first effective : α) : Prop := merge first effective = effective

section Keeps

variable {α : Type} [Merge α] [LawfulMerge α] {first second third : α}

theorem keeps_merge (first inferred : α) : Keeps first (merge first inferred) := by
  have hself := merge_self first
  rw [Keeps, ← assoc, hself]

/-- What was kept is kept under a later merge. -/
theorem Keeps.merge (h : Keeps first second) (inferred : α) : Keeps first (merge second inferred) := by
  rw [Keeps, ← assoc, h]

end Keeps

end Laws

end Nodal.Recipes
