import Mathlib.Data.List.Nodup
import Nodal.Recipe.Render

/-!
# Reading a recipe

`recipe/parse.rs` and the readers that `model/recipe.rs` derives: every table and every key has to be one
that a recipe has, a value has to be of its key's type, and a key that is not there is unset.

The reader of TOML is `toml`, a text's tables or nothing where the text is no TOML or holds a value that no
key of a recipe takes. What `render` writes is read as the recipe it was written from (`parse_render`),
with its defaults stated and without its stand-ins.
-/

set_option autoImplicit false

namespace Nodal.Recipes

open Foundation Text Toml Model

/-! ### Values -/

def decodeText : Value → Option Text
  | .string text => some text
  | _ => none

def decodeScalar {shape : Text → Bool} (value : Value) : Option (Scalar shape) :=
  (decodeText value).bind Scalar.parse

def ofWord {α : Type} [Word α] (text : Text) : Option α :=
  (Word.all : List α).find? fun value ↦ decide (token value = text)

def decodeWord {α : Type} [Word α] (value : Value) : Option α := (decodeText value).bind ofWord

def decodeBool : Value → Option Bool
  | .boolean truth => some truth
  | _ => none

/-- A number below a bound. -/
def decodeNumber {bound : ℕ} : Value → Option (Fin bound)
  | .integer n => if h : n < bound then some ⟨n, h⟩ else none
  | _ => none

def decodeList {α : Type} (decode : Text → Option α) : Value → Option (List α)
  | .strings items => items.mapM decode
  | _ => none

/-- The managers, as one word or as a list of them. -/
def decodeManagers : Value → Option (List PackageManager)
  | .string word => (ofWord word).map fun manager ↦ [manager]
  | .strings words => words.mapM ofWord
  | _ => none

/-- What a key that may be left out holds. -/
def optional {α : Type} (decode : Value → Option α) (value : Value) : Option (Option α) :=
  (decode value).map some

/-! ### The keys a recipe has -/

def topKeys : List Text := [
  "backend".toList, "package_manager".toList, "package_manager_pin".toList, "monorepo".toList,
  "task_cache".toList, "dockerfile".toList, "compose".toList]

def commandKeys : List Text := [
  "dev".toList, "build".toList, "test".toList, "lint".toList, "typecheck".toList, "migrate".toList,
  "seed".toList, "reset".toList]

def dbKeys : List Text := ["kind".toList, "tool".toList, "migrations_dir".toList, "url_var".toList]

def serviceKeys : List Text := ["shared".toList, "per_unit".toList]

def envKeys : List Text := ["required_local".toList, "generated".toList, "secrets".toList]

def baseKeys : List Text := ["exclude".toList, "invalidate".toList]

def hookKeys : List Text := [
  "pre_new".toList, "post_new".toList, "pre_merge".toList, "post_merge".toList,
  "pre_reclaim".toList, "post_reclaim".toList]

def syncKeys : List Text := ["auto_irreversible".toList]

def reclaimKeys : List Text := ["trash_retention".toList]

def lockKeys : List Text := ["idle_hours".toList]

/-! ### Tables -/

/-- Whether every key is one of some names. -/
def known (names : List Text) (rows : List (Text × Value)) : Bool :=
  rows.all fun row ↦ decide (row.1 ∈ names)

/-- The value of a key, which is unset where the key is not there. -/
def field {α : Type} [Merge α] (decode : Value → Option α) (name : Text) (rows : List (Text × Value)) :
    Option α :=
  match rows.find? fun row ↦ decide (row.1 = name) with
  | some row => decode row.2
  | none => some unset

def decodeRow {shape : Text → Bool} {ν : Type} (decode : Value → Option ν) (row : Text × Value) :
    Option (Scalar shape × ν) := do
  return (← Scalar.parse row.1, ← decode row.2)

def decodeMap {shape : Text → Bool} {ν : Type} (decode : Value → Option ν) (rows : List (Text × Value)) :
    Option (BTreeMap shape ν) :=
  (rows.mapM (decodeRow decode)).map BTreeMap.ofRows

def decodeCommands (rows : List (Text × Value)) : Option Commands := do
  guard (known commandKeys rows)
  return {
    dev := ← field (optional decodeScalar) "dev".toList rows
    build := ← field (optional decodeScalar) "build".toList rows
    test := ← field (optional decodeScalar) "test".toList rows
    lint := ← field (optional decodeScalar) "lint".toList rows
    typecheck := ← field (optional decodeScalar) "typecheck".toList rows
    migrate := ← field (optional decodeScalar) "migrate".toList rows
    seed := ← field (optional decodeScalar) "seed".toList rows
    reset := ← field (optional decodeScalar) "reset".toList rows }

/-- The database, from its own rows and those of its ports. -/
def decodeDb (rows ports : List (Text × Value)) : Option Db := do
  guard (known dbKeys rows)
  return {
    kind := ← field (optional decodeWord) "kind".toList rows
    tool := ← field (optional decodeWord) "tool".toList rows
    migrationsDir := ← field (optional decodeText) "migrations_dir".toList rows
    urlVar := ← field (decodeList Scalar.parse) "url_var".toList rows
    fixedPorts := ← decodeMap decodeNumber ports }

def decodeServices (rows : List (Text × Value)) : Option Services := do
  guard (known serviceKeys rows)
  return {
    shared := ← field (decodeList Scalar.parse) "shared".toList rows
    perUnit := ← field (decodeList Scalar.parse) "per_unit".toList rows }

/-- The variables, from their own rows and those of their stand-ins. -/
def decodeEnv (rows standIns : List (Text × Value)) : Option Env := do
  guard (known envKeys rows)
  return {
    requiredLocal := ← field (decodeList Scalar.parse) "required_local".toList rows
    generated := ← field (decodeList Scalar.parse) "generated".toList rows
    secrets := ← field (decodeList Scalar.parse) "secrets".toList rows
    standIn := ← decodeMap decodeText standIns }

def decodeBase (rows : List (Text × Value)) : Option BaseSpec := do
  guard (known baseKeys rows)
  return {
    exclude := ← field (decodeList some) "exclude".toList rows
    invalidate := ← field (decodeList some) "invalidate".toList rows }

def decodeHooks (rows : List (Text × Value)) : Option Hooks := do
  guard (known hookKeys rows)
  return {
    preNew := ← field (optional decodeScalar) "pre_new".toList rows
    postNew := ← field (optional decodeScalar) "post_new".toList rows
    preMerge := ← field (optional decodeScalar) "pre_merge".toList rows
    postMerge := ← field (optional decodeScalar) "post_merge".toList rows
    preReclaim := ← field (optional decodeScalar) "pre_reclaim".toList rows
    postReclaim := ← field (optional decodeScalar) "post_reclaim".toList rows }

def decodeSync (rows : List (Text × Value)) : Option Sync := do
  guard (known syncKeys rows)
  return { autoIrreversible := ← field (optional decodeBool) "auto_irreversible".toList rows }

def decodeReclaim (rows : List (Text × Value)) : Option Reclaim := do
  guard (known reclaimKeys rows)
  return { trashRetention := ← field (optional decodeNumber) "trash_retention".toList rows }

def decodeLock (rows : List (Text × Value)) : Option LockPolicy := do
  guard (known lockKeys rows)
  return { idleHours := ← field (optional decodeNumber) "idle_hours".toList rows }

/-- The names of the tables that a recipe has. -/
def TABLES : List (List Text) := [[], ["toolchain".toList], ["commands".toList], ["db".toList],
  ["db".toList, "fixed_ports".toList], ["services".toList], ["env".toList],
  ["env".toList, "stand_in".toList], ["base".toList], ["hooks".toList], ["sync".toList],
  ["reclaim".toList], ["lock".toList]]

/-- The rows of a table, none where the document does not have it. -/
def rowsOf (document : Document) (name : List Text) : List (Text × Value) :=
  match document.find? fun table ↦ decide (table.name = name) with
  | some table => table.rows
  | none => []

/-- The keys before the first table, with the tables unset. -/
def decodeTop (rows : List (Text × Value)) : Option Recipe := do
  guard (known topKeys rows)
  return { (unset : Recipe) with
    backend := ← field (optional decodeWord) "backend".toList rows
    packageManager := ← field decodeManagers "package_manager".toList rows
    packageManagerPin := ← field (optional decodeScalar) "package_manager_pin".toList rows
    monorepo := ← field (optional decodeBool) "monorepo".toList rows
    taskCache := ← field (optional decodeWord) "task_cache".toList rows
    dockerfile := ← field (optional decodeText) "dockerfile".toList rows
    compose := ← field (decodeList some) "compose".toList rows }

def decode (document : Document) : Option Recipe := do
  guard (document.all fun table ↦ decide (table.name ∈ TABLES))
  return { ← decodeTop (rowsOf document []) with
    toolchain := ← decodeMap decodeScalar (rowsOf document ["toolchain".toList])
    commands := ← decodeCommands (rowsOf document ["commands".toList])
    db := ← decodeDb (rowsOf document ["db".toList])
      (rowsOf document ["db".toList, "fixed_ports".toList])
    services := ← decodeServices (rowsOf document ["services".toList])
    env := ← decodeEnv (rowsOf document ["env".toList]) (rowsOf document ["env".toList, "stand_in".toList])
    base := ← decodeBase (rowsOf document ["base".toList])
    hooks := ← decodeHooks (rowsOf document ["hooks".toList])
    sync := ← decodeSync (rowsOf document ["sync".toList])
    reclaim := ← decodeReclaim (rowsOf document ["reclaim".toList])
    lock := ← decodeLock (rowsOf document ["lock".toList]) }

/-- Parse the text of a recipe file. -/
def parse (toml : Text → Option Document) (text : Text) : Option Recipe := (toml text).bind decode

/-! ### Values are read back -/

/-- What a key says is a value. -/
def Says {α : Type} [Merge α] (decode : Value → Option α) (said : Option Value) (value : α) : Prop :=
  match said with
  | some given => decode given = some value
  | none => value = unset

theorem says_optional {α : Type} {decode : Value → Option α} {write : α → Value}
    (h : ∀ given, decode (write given) = some given) (value : Option α) :
    Says (optional decode) (value.map write) value := by
  cases value with
  | none => rfl
  | some given => exact congrArg (Option.map some) (h given)

theorem decodeScalar_text {shape : Text → Bool} (scalar : Scalar shape) :
    decodeScalar (.string scalar.text) = some scalar :=
  Scalar.parse_text scalar

theorem ofWord_token {α : Type} [Word α] (value : α) : ofWord (token value) = some value :=
  Word.find_token value

theorem decodeNumber_val {bound : ℕ} (n : Fin bound) : decodeNumber (.integer n.val) = some n :=
  dif_pos n.isLt

theorem mapM_map {α β : Type} {decode : β → Option α} {write : α → β}
    (h : ∀ given, decode (write given) = some given) (values : List α) :
    (values.map write).mapM decode = some values := by
  induction values with
  | nil => rfl
  | cons given values ih => rw [List.map_cons, List.mapM_cons, h, ih]; rfl

theorem says_strings {α : Type} {decode : Text → Option α} {write : α → Text}
    (h : ∀ given, decode (write given) = some given) (values : List α) :
    Says (decodeList decode) (some (.strings (values.map write))) values :=
  mapM_map h values

/-- A list that is left out where it is empty. -/
theorem says_listed {α : Type} {decode : Value → Option (List α)} {write : α → Text} {values : List α}
    (h : decode (.strings (values.map write)) = some values) :
    Says decode (listed (values.map write)) values := by
  cases values with
  | nil => rfl
  | cons given values => exact h

theorem decodeMap_rows {shape : Text → Bool} {ν : Type} {decode : Value → Option ν} {write : ν → Value}
    (h : ∀ given, decode (write given) = some given) (map : BTreeMap shape ν) :
    decodeMap decode (map.rows.map fun row ↦ (row.1.text, write row.2)) = some map := by
  have hrow (row : Scalar shape × ν) : decodeRow decode (row.1.text, write row.2) = some row := by
    rw [decodeRow, Scalar.parse_text, h]
    rfl
  rw [decodeMap, mapM_map hrow, Option.map_some, BTreeMap.ofRows_rows]

/-! ### Tables are read back -/

theorem mem_present {fields : List Field} {row : Text × Value} :
    row ∈ present fields ↔ (row.1, some row.2) ∈ fields := by
  simp only [present, List.mem_filterMap, Option.map_eq_some_iff]
  constructor
  · rintro ⟨⟨name, value⟩, hmem, given, hgiven, rfl⟩
    exact hgiven ▸ hmem
  · intro h
    exact ⟨_, h, row.2, rfl, rfl⟩

theorem known_present {fields : List Field} {names : List Text} (h : fields.map Prod.fst = names) :
    known names (present fields) = true := by
  refine List.all_eq_true.mpr fun row hrow ↦ decide_eq_true ?_
  rw [← h]
  exact List.mem_map_of_mem (mem_present.mp hrow)

/-- Assumes: no key is there twice, and the key is at a place among the fields. -/
theorem field_present {α : Type} [Merge α] {decode : Value → Option α} {fields : List Field}
    {name : Text} {said : Option Value} {value : α} (hnodup : (fields.map Prod.fst).Nodup) (i : ℕ)
    (hplace : fields[i]? = some (name, said)) (h : Says decode said value) :
    field decode name (present fields) = some value := by
  have hmem : (name, said) ∈ fields := List.mem_of_getElem? hplace
  have honly {other : Option Value} (hother : (name, other) ∈ fields) : other = said :=
    congrArg Prod.snd (List.inj_on_of_nodup_map hnodup hother hmem rfl)
  unfold field
  cases hfind : (present fields).find? fun row ↦ decide (row.1 = name) with
  | some row =>
    have hname := List.find?_some hfind
    rw [decide_eq_true_eq] at hname
    have hrow := mem_present.mp (List.mem_of_find?_eq_some hfind)
    rw [hname] at hrow
    rw [← honly hrow] at h
    exact h
  | none =>
    cases said with
    | none => exact congrArg some h.symm
    | some given =>
      have hrow : (name, given) ∈ present fields := mem_present.mpr hmem
      have hnot := List.find?_eq_none.mp hfind (name, given) hrow
      simp at hnot

theorem listRows_eq (lists : List (Text × List Text)) :
    listRows lists = present (lists.map fun list ↦ (list.1, some (.strings list.2))) := by
  induction lists with
  | nil => rfl
  | cons list lists ih => exact congrArg (List.cons _) ih

/-- A key that may be left out. -/
theorem field_optional {α : Type} {decode : Value → Option α} {write : α → Value}
    (h : ∀ given, decode (write given) = some given) {fields : List Field}
    (hnodup : (fields.map Prod.fst).Nodup) {name : Text} {value : Option α} (i : ℕ)
    (hplace : fields[i]? = some (name, value.map write)) :
    field (optional decode) name (present fields) = some value :=
  field_present hnodup i hplace (says_optional h value)

/-- A list that is written whatever it holds. -/
theorem field_listRows {α : Type} {decode : Text → Option α} {write : α → Text}
    (h : ∀ given, decode (write given) = some given) {lists : List (Text × List Text)}
    (hnodup : (lists.map Prod.fst).Nodup) {name : Text} {values : List α} (i : ℕ)
    (hplace : lists[i]? = some (name, values.map write)) :
    field (decodeList decode) name (listRows lists) = some values := by
  have hnames : ((lists.map fun list ↦ ((list.1, some (.strings list.2)) : Field)).map Prod.fst).Nodup := by
    rwa [List.map_map]
  rw [listRows_eq]
  refine field_present hnames i ?_ (says_strings h values)
  rw [List.getElem?_map, hplace]
  rfl

theorem known_listRows {lists : List (Text × List Text)} {names : List Text}
    (h : lists.map Prod.fst = names) : known names (listRows lists) = true := by
  rw [listRows_eq]
  refine known_present ?_
  rw [← h, List.map_map]
  rfl

theorem decodeCommands_present (recipe : Recipe) :
    decodeCommands (present (commandFields recipe)) = some recipe.commands := by
  have hnodup : ((commandFields recipe).map Prod.fst).Nodup := (by decide : commandKeys.Nodup)
  have hknown : known commandKeys (present (commandFields recipe)) = true :=
    known_present rfl
  have hfield {name : Text} {line : Option CommandLine} := @field_optional CommandLine decodeScalar _
    decodeScalar_text (commandFields recipe) hnodup name line
  simp only [decodeCommands, guard, if_pos hknown, Option.bind_eq_bind, Option.pure_def, Option.bind_some,
    hfield 0 rfl, hfield 1 rfl, hfield 2 rfl, hfield 3 rfl, hfield 4 rfl, hfield 5 rfl, hfield 6 rfl,
    hfield 7 rfl]

theorem decodeHooks_present (recipe : Recipe) :
    decodeHooks (present (hookFields recipe)) = some recipe.hooks := by
  have hnodup : ((hookFields recipe).map Prod.fst).Nodup := (by decide : hookKeys.Nodup)
  have hknown : known hookKeys (present (hookFields recipe)) = true :=
    known_present rfl
  have hfield {name : Text} {line : Option CommandLine} := @field_optional CommandLine decodeScalar _
    decodeScalar_text (hookFields recipe) hnodup name line
  simp only [decodeHooks, guard, if_pos hknown, Option.bind_eq_bind, Option.pure_def, Option.bind_some,
    hfield 0 rfl, hfield 1 rfl, hfield 2 rfl, hfield 3 rfl, hfield 4 rfl, hfield 5 rfl]

theorem decodeDb_present (recipe : Recipe) :
    decodeDb (present (dbFields recipe)) (portRows recipe) = some recipe.db := by
  have hnodup : ((dbFields recipe).map Prod.fst).Nodup := (by decide : dbKeys.Nodup)
  have hknown : known dbKeys (present (dbFields recipe)) = true :=
    known_present rfl
  have hkind : field (optional decodeWord) "kind".toList (present (dbFields recipe)) = some recipe.db.kind :=
    field_optional ofWord_token hnodup 0 rfl
  have htool : field (optional decodeWord) "tool".toList (present (dbFields recipe)) = some recipe.db.tool :=
    field_optional ofWord_token hnodup 1 rfl
  have hdirectory : field (optional decodeText) "migrations_dir".toList (present (dbFields recipe)) =
      some recipe.db.migrationsDir :=
    @field_optional Text decodeText .string (fun _ ↦ rfl) _ hnodup _ _ 2 rfl
  have hurl : field (decodeList Scalar.parse) "url_var".toList (present (dbFields recipe)) =
      some recipe.db.urlVar :=
    field_present hnodup 3 rfl (says_listed (says_strings Scalar.parse_text recipe.db.urlVar))
  have hports : decodeMap decodeNumber (portRows recipe) = some recipe.db.fixedPorts :=
    decodeMap_rows decodeNumber_val recipe.db.fixedPorts
  simp only [decodeDb, guard, if_pos hknown, Option.bind_eq_bind, Option.pure_def, Option.bind_some,
    hkind, htool, hdirectory, hurl, hports]

theorem decodeServices_listRows (recipe : Recipe) :
    decodeServices (listRows (serviceLists recipe)) = some recipe.services := by
  have hnodup : ((serviceLists recipe).map Prod.fst).Nodup := (by decide : serviceKeys.Nodup)
  have hknown : known serviceKeys (listRows (serviceLists recipe)) = true :=
    known_listRows rfl
  have hfield {name : Text} {values : List ServiceName} := @field_listRows ServiceName Scalar.parse _
    Scalar.parse_text (serviceLists recipe) hnodup name values
  simp only [decodeServices, guard, if_pos hknown, Option.bind_eq_bind, Option.pure_def, Option.bind_some,
    hfield 0 rfl, hfield 1 rfl]

/-- No stand-in is said, so none is read. -/
theorem decodeEnv_listRows (recipe : Recipe) :
    decodeEnv (listRows (envLists recipe)) [] = some { recipe.env with standIn := .empty } := by
  have hnodup : ((envLists recipe).map Prod.fst).Nodup := (by decide : envKeys.Nodup)
  have hknown : known envKeys
      (listRows (envLists recipe)) = true :=
    known_listRows rfl
  have hfield {name : Text} {values : List EnvName} := @field_listRows EnvName Scalar.parse _
    Scalar.parse_text (envLists recipe) hnodup name values
  have hnone : decodeMap decodeText [] = some (BTreeMap.empty : BTreeMap ENV_NAME Text) := rfl
  simp only [decodeEnv, guard, if_pos hknown, Option.bind_eq_bind, Option.pure_def, Option.bind_some,
    hfield 0 rfl, hfield 1 rfl, hfield 2 rfl, hnone]

theorem decodeBase_listRows (recipe : Recipe) :
    decodeBase (listRows (baseLists recipe)) = some recipe.base := by
  have hnodup : ((baseLists recipe).map Prod.fst).Nodup := (by decide : baseKeys.Nodup)
  have hknown : known baseKeys (listRows (baseLists recipe)) = true :=
    known_listRows rfl
  have hexclude : field (decodeList some) "exclude".toList (listRows (baseLists recipe)) =
      some recipe.base.exclude :=
    @field_listRows Text some id (fun _ ↦ rfl) _ hnodup _ _ 0 (by rw [List.map_id]; rfl)
  have hinvalidate : field (decodeList some) "invalidate".toList (listRows (baseLists recipe)) =
      some recipe.base.invalidate :=
    @field_listRows Text some id (fun _ ↦ rfl) _ hnodup _ _ 1 (by rw [List.map_id]; rfl)
  simp only [decodeBase, guard, if_pos hknown, Option.bind_eq_bind, Option.pure_def, Option.bind_some,
    hexclude, hinvalidate]

theorem decodeSync_present (recipe : Recipe) :
    decodeSync (present (syncFields recipe)) = some recipe.sync := by
  have hnodup : ((syncFields recipe).map Prod.fst).Nodup := List.nodup_singleton _
  have hknown : known syncKeys (present (syncFields recipe)) = true :=
    known_present rfl
  have hfield : field (optional decodeBool) "auto_irreversible".toList (present (syncFields recipe)) =
      some recipe.sync.autoIrreversible :=
    @field_optional Bool decodeBool .boolean (fun _ ↦ rfl) _ hnodup _ _ 0 rfl
  simp only [decodeSync, guard, if_pos hknown, Option.bind_eq_bind, Option.pure_def, Option.bind_some,
    hfield]

theorem decodeReclaim_present (recipe : Recipe) :
    decodeReclaim (present (reclaimFields recipe)) = some recipe.reclaim := by
  have hnodup : ((reclaimFields recipe).map Prod.fst).Nodup := List.nodup_singleton _
  have hknown : known reclaimKeys (present (reclaimFields recipe)) = true :=
    known_present rfl
  have hfield : field (optional decodeNumber) "trash_retention".toList (present (reclaimFields recipe)) =
      some recipe.reclaim.trashRetention :=
    field_optional decodeNumber_val hnodup 0 rfl
  simp only [decodeReclaim, guard, if_pos hknown, Option.bind_eq_bind, Option.pure_def, Option.bind_some,
    hfield]

theorem decodeLock_present (recipe : Recipe) :
    decodeLock (present (lockFields recipe)) = some recipe.lock := by
  have hnodup : ((lockFields recipe).map Prod.fst).Nodup := List.nodup_singleton _
  have hknown : known lockKeys (present (lockFields recipe)) = true :=
    known_present rfl
  have hfield : field (optional decodeNumber) "idle_hours".toList (present (lockFields recipe)) =
      some recipe.lock.idleHours :=
    field_optional decodeNumber_val hnodup 0 rfl
  simp only [decodeLock, guard, if_pos hknown, Option.bind_eq_bind, Option.pure_def, Option.bind_some,
    hfield]

/-! ### Documents are read back -/

/-- The names of the tables before and after those of the ports. -/
theorem names_document (recipe : Recipe) : (document recipe).map Table.name =
    [[], ["toolchain".toList], ["commands".toList], ["db".toList]] ++
      ((portsTable recipe).map Table.name ++ [["services".toList], ["env".toList], ["base".toList],
        ["hooks".toList], ["sync".toList], ["reclaim".toList], ["lock".toList]]) := by
  simp only [document, sections, List.map_cons, List.map_append, List.map_nil, List.cons_append,
    List.nil_append]

theorem names_portsTable (recipe : Recipe) :
    ((portsTable recipe).map Table.name).Sublist [["db".toList, "fixed_ports".toList]] := by
  unfold portsTable ifAny
  split_ifs
  · exact List.nil_sublist _
  · exact List.Sublist.refl _

theorem document_names (recipe : Recipe) :
    ((document recipe).map Table.name).Sublist TABLES := by
  have hlater : [["services".toList], ["env".toList], ["base".toList], ["hooks".toList], ["sync".toList],
      ["reclaim".toList], ["lock".toList]].Sublist [["services".toList], ["env".toList],
        ["env".toList, "stand_in".toList], ["base".toList], ["hooks".toList], ["sync".toList],
        ["reclaim".toList], ["lock".toList]] :=
    ((List.sublist_cons_self ["env".toList, "stand_in".toList] _).cons_cons _).cons_cons _
  rw [names_document]
  exact (List.Sublist.refl _).append ((names_portsTable recipe).append hlater)

theorem nodup_TABLES : TABLES.Nodup := by
  decide

/-- A table of a document is found by its name. -/
theorem rowsOf_of_mem {tables : Document} (hnodup : (tables.map Table.name).Nodup) {table : Table}
    (hmem : table ∈ tables) : rowsOf tables table.name = table.rows := by
  unfold rowsOf
  cases hfind : tables.find? fun other ↦ decide (other.name = table.name) with
  | some found =>
    have hname := List.find?_some hfind
    rw [decide_eq_true_eq] at hname
    have hsame := List.inj_on_of_nodup_map hnodup (List.mem_of_find?_eq_some hfind) hmem hname
    rw [hsame]
  | none =>
    have hnot := List.find?_eq_none.mp hfind table hmem
    simp at hnot

theorem rowsOf_of_notMem {tables : Document} {name : List Text} (h : name ∉ tables.map Table.name) :
    rowsOf tables name = [] := by
  unfold rowsOf
  cases hfind : tables.find? fun other ↦ decide (other.name = name) with
  | some found =>
    have hname := List.find?_some hfind
    rw [decide_eq_true_eq] at hname
    exact absurd (hname ▸ List.mem_map_of_mem (List.mem_of_find?_eq_some hfind)) h
  | none => rfl

/-- What is read of what a file says of a recipe. -/
def written (recipe : Recipe) : Recipe :=
  { recipe.stated with env := { recipe.env with standIn := .empty } }

theorem rowsOf_ports (recipe : Recipe) :
    rowsOf (document recipe) ["db".toList, "fixed_ports".toList] = portRows recipe := by
  by_cases hempty : (portRows recipe).isEmpty = true
  · have hnone : portsTable recipe = [] := if_pos hempty
    rw [List.isEmpty_iff.mp hempty]
    refine rowsOf_of_notMem ?_
    rw [names_document, hnone]
    decide
  · have hone : portsTable recipe = [⟨["db".toList, "fixed_ports".toList], portRows recipe⟩] :=
      if_neg hempty
    refine @rowsOf_of_mem _ (nodup_TABLES.sublist (document_names recipe))
      ⟨["db".toList, "fixed_ports".toList], portRows recipe⟩ ?_
    simp only [document, sections, hone, List.mem_cons, List.mem_append, true_or, or_true]

theorem rowsOf_standIns (recipe : Recipe) :
    rowsOf (document recipe) ["env".toList, "stand_in".toList] = [] := by
  refine rowsOf_of_notMem fun hmem ↦ ?_
  rw [names_document, List.mem_append, List.mem_append] at hmem
  rcases hmem with hbefore | hports | hafter
  · revert hbefore
    decide
  · have hport := List.mem_singleton.mp ((names_portsTable recipe).subset hports)
    revert hport
    decide
  · revert hafter
    decide

/-- What a recipe's own keys say before its tables is read back. -/
theorem decodeTop_present (recipe : Recipe) :
    decodeTop (present (topFields recipe)) = some { recipe with
      toolchain := .empty, commands := unset, db := unset, services := unset, env := unset, base := unset,
      hooks := unset, sync := unset, reclaim := unset, lock := unset } := by
  have hnodup : ((topFields recipe).map Prod.fst).Nodup := (by decide : topKeys.Nodup)
  have hknown : known topKeys (present (topFields recipe)) = true :=
    known_present rfl
  have hbackend : field (optional decodeWord) "backend".toList (present (topFields recipe)) =
      some recipe.backend :=
    field_optional ofWord_token hnodup 0 rfl
  have hmanagers : field decodeManagers "package_manager".toList (present (topFields recipe)) =
      some recipe.packageManager :=
    field_present hnodup 1 rfl (says_listed (mapM_map ofWord_token recipe.packageManager))
  have hpin : field (optional decodeScalar) "package_manager_pin".toList (present (topFields recipe)) =
      some recipe.packageManagerPin :=
    field_optional decodeScalar_text hnodup 2 rfl
  have hmonorepo : field (optional decodeBool) "monorepo".toList (present (topFields recipe)) =
      some recipe.monorepo :=
    @field_optional Bool decodeBool .boolean (fun _ ↦ rfl) _ hnodup _ _ 3 rfl
  have hcache : field (optional decodeWord) "task_cache".toList (present (topFields recipe)) =
      some recipe.taskCache :=
    field_optional ofWord_token hnodup 4 rfl
  have hdockerfile : field (optional decodeText) "dockerfile".toList (present (topFields recipe)) =
      some recipe.dockerfile :=
    @field_optional Text decodeText .string (fun _ ↦ rfl) _ hnodup _ _ 5 rfl
  have hcompose : field (decodeList some) "compose".toList (present (topFields recipe)) =
      some recipe.compose := by
    refine @field_present _ _ (decodeList some) _ _ (listed (recipe.compose.map id)) _ hnodup 6 ?_ ?_
    · rw [List.map_id]
      rfl
    · exact says_listed (mapM_map (fun _ ↦ rfl) recipe.compose)
  simp only [decodeTop, guard, if_pos hknown, Option.bind_eq_bind, Option.pure_def, Option.bind_some,
    hbackend, hmanagers, hpin, hmonorepo, hcache, hdockerfile, hcompose]
  rfl

theorem decode_document (recipe : Recipe) : decode (document recipe) = some (written recipe) := by
  have hnames := document_names recipe
  have hall : ((document recipe).all fun table ↦ decide (table.name ∈ TABLES)) = true :=
    List.all_eq_true.mpr fun table htable ↦
      decide_eq_true (hnames.subset (List.mem_map_of_mem htable))
  have hrows {name : List Text} {rows : List (Text × Value)} (h : ⟨name, rows⟩ ∈ document recipe) :
      rowsOf (document recipe) name = rows :=
    rowsOf_of_mem (nodup_TABLES.sublist hnames) h
  have hsection {name : List Text} {rows : List (Text × Value)} (h : ⟨name, rows⟩ ∈ sections recipe) :
      rowsOf (document recipe) name = rows :=
    hrows (List.mem_cons_of_mem _ h)
  have htop := hrows (List.mem_cons_self : _ ∈ document recipe)
  have htoolchain : rowsOf (document recipe) ["toolchain".toList] = toolchainRows recipe :=
    hsection (by simp only [sections, List.mem_cons, List.mem_append, true_or])
  have hcommands : rowsOf (document recipe) ["commands".toList] = present (commandFields recipe) :=
    hsection (by simp only [sections, List.mem_cons, List.mem_append, true_or, or_true])
  have hdb : rowsOf (document recipe) ["db".toList] = present (dbFields recipe) :=
    hsection (by simp only [sections, List.mem_cons, List.mem_append, true_or, or_true])
  have hservices : rowsOf (document recipe) ["services".toList] = listRows (serviceLists recipe) :=
    hsection (by simp only [sections, List.mem_cons, List.mem_append, true_or, or_true])
  have henv : rowsOf (document recipe) ["env".toList] = listRows (envLists recipe) :=
    hsection (by simp only [sections, List.mem_cons, List.mem_append, true_or, or_true])
  have hbase : rowsOf (document recipe) ["base".toList] = listRows (baseLists recipe) :=
    hsection (by simp only [sections, List.mem_cons, List.mem_append, true_or, or_true])
  have hhooks : rowsOf (document recipe) ["hooks".toList] = present (hookFields recipe) :=
    hsection (by simp only [sections, List.mem_cons, List.mem_append, true_or, or_true])
  have hsync : rowsOf (document recipe) ["sync".toList] = present (syncFields recipe) :=
    hsection (by simp only [sections, List.mem_cons, List.mem_append, true_or, or_true])
  have hreclaim : rowsOf (document recipe) ["reclaim".toList] = present (reclaimFields recipe) :=
    hsection (by simp only [sections, List.mem_cons, List.mem_append, true_or, or_true])
  have hlock : rowsOf (document recipe) ["lock".toList] = present (lockFields recipe) :=
    hsection (by simp only [sections, List.mem_cons, List.mem_append, true_or, or_true])
  have htools : decodeMap decodeScalar (toolchainRows recipe) = some recipe.toolchain :=
    decodeMap_rows decodeScalar_text recipe.toolchain
  simp only [decode, guard, if_pos hall, Option.bind_eq_bind, Option.pure_def, Option.bind_some, htop,
    htoolchain, hcommands, hdb, rowsOf_ports, rowsOf_standIns, hservices, henv, hbase, hhooks, hsync, hreclaim,
    hlock, decodeTop_present, htools, decodeCommands_present, decodeDb_present, decodeServices_listRows,
    decodeEnv_listRows, decodeBase_listRows, decodeHooks_present, decodeSync_present, decodeReclaim_present,
    decodeLock_present]
  rfl

/-! ### What is written is TOML -/

/-- No key of a table is there twice, and none is the name of a table. -/
structure WellKept (table : Table) : Prop where
  keys : (table.rows.map Prod.fst).Nodup
  apart : ∀ row ∈ table.rows, ∀ name ∈ TABLES, ¬(table.name ++ [row.1]) <+: name

/-- The tables whose keys are the recipe's own. -/
def TABLE_KEYS : List (List Text × List Text) := [([], topKeys), (["commands".toList], commandKeys),
  (["db".toList], dbKeys), (["services".toList], serviceKeys), (["env".toList], envKeys),
  (["base".toList], baseKeys), (["hooks".toList], hookKeys), (["sync".toList], syncKeys),
  (["reclaim".toList], reclaimKeys), (["lock".toList], lockKeys)]

theorem keys_apart : ∀ entry ∈ TABLE_KEYS, entry.2.Nodup ∧ ∀ key ∈ entry.2, ∀ other ∈ TABLES,
    ¬(entry.1 ++ [key]) <+: other := by
  decide +kernel

theorem names_present (fields : List Field) :
    ((present fields).map Prod.fst).Sublist (fields.map Prod.fst) := by
  induction fields with
  | nil => exact List.Sublist.refl _
  | cons field fields ih =>
    obtain ⟨name, value⟩ := field
    cases value with
    | none => exact ih.cons _
    | some given => exact ih.cons_cons _

theorem wellKept_present {name keys : List Text} {fields : List Field} (hkeys : fields.map Prod.fst = keys)
    (h : (name, keys) ∈ TABLE_KEYS) : WellKept ⟨name, present fields⟩ where
  keys := by
    have hnodup := (keys_apart _ h).1
    rw [← hkeys] at hnodup
    exact hnodup.sublist (names_present fields)
  apart row hrow other hother := by
    have hkey : row.1 ∈ keys := hkeys ▸ List.mem_map_of_mem (mem_present.mp hrow)
    exact (keys_apart _ h).2 row.1 hkey other hother

theorem wellKept_listRows {name keys : List Text} {lists : List (Text × List Text)}
    (hkeys : lists.map Prod.fst = keys) (h : (name, keys) ∈ TABLE_KEYS) :
    WellKept ⟨name, listRows lists⟩ := by
  rw [listRows_eq]
  refine wellKept_present ?_ h
  rw [← hkeys, List.map_map]
  rfl

theorem wellKept_rows {shape : Text → Bool} {ν : Type} {name : List Text} (map : BTreeMap shape ν)
    (write : ν → Value) (hapart : ∀ key, ∀ other ∈ TABLES, ¬(name ++ [key]) <+: other) :
    WellKept ⟨name, map.rows.map fun row ↦ (row.1.text, write row.2)⟩ where
  keys := by
    rw [List.map_map]
    refine List.pairwise_map.mpr (map.sorted.imp fun {first later} hless hequal ↦ ?_)
    have htext : first.1.text = later.1.text := hequal
    rw [htext] at hless
    exact List.lt_irrefl _ hless
  apart row _ other hother := hapart row.1 other hother

theorem toolchain_apart (key : Text) : ∀ other ∈ TABLES, ¬(["toolchain".toList] ++ [key]) <+: other := by
  have hhead : ∀ other ∈ TABLES, 1 < other.length → other.head? ≠ some "toolchain".toList := by decide
  rintro other hother ⟨rest, rfl⟩
  exact hhead _ hother (by simp) rfl

theorem ports_apart (key : Text) :
    ∀ other ∈ TABLES, ¬(["db".toList, "fixed_ports".toList] ++ [key]) <+: other := by
  have hshort : ∀ other ∈ TABLES, other.length < 3 := by decide
  exact fun other hother hheads ↦ absurd hheads.length_le (Nat.not_le.mpr (hshort other hother))

theorem wellKept_document (recipe : Recipe) : ∀ table ∈ document recipe, WellKept table := by
  have hports : ∀ table ∈ portsTable recipe, WellKept table := by
    unfold portsTable ifAny
    split_ifs
    · exact List.forall_mem_nil _
    · exact List.forall_mem_singleton.mpr
        (wellKept_rows recipe.db.fixedPorts (fun port ↦ .integer port.val) ports_apart)
  have htools : WellKept ⟨["toolchain".toList], toolchainRows recipe⟩ :=
    wellKept_rows recipe.toolchain (fun version ↦ .string version.text) toolchain_apart
  simp only [document, sections, List.forall_mem_cons, List.forall_mem_append]
  refine ⟨@wellKept_present _ topKeys _ rfl (by decide), ⟨⟨htools,
    @wellKept_present _ commandKeys _ rfl (by decide), @wellKept_present _ dbKeys _ rfl (by decide),
    List.forall_mem_nil _⟩, hports⟩, @wellKept_listRows _ serviceKeys _ rfl (by decide),
    @wellKept_listRows _ envKeys _ rfl (by decide), @wellKept_listRows _ baseKeys _ rfl (by decide),
    @wellKept_present _ hookKeys _ rfl (by decide), @wellKept_present _ syncKeys _ rfl (by decide),
    @wellKept_present _ reclaimKeys _ rfl (by decide), @wellKept_present _ lockKeys _ rfl (by decide),
    List.forall_mem_nil _⟩

theorem distinct_document (recipe : Recipe) : Distinct (document recipe) := by
  have hnames := document_names recipe
  have htables := wellKept_document recipe
  refine ⟨nodup_TABLES.sublist hnames, fun table h ↦ (htables table h).keys, ?_⟩
  intro table htable row hrow other hother
  exact (htables table htable).apart row hrow other.name
    (hnames.subset (List.mem_map_of_mem hother))

/-! ### What is rendered reads back -/

theorem written_eq_stated_iff (recipe : Recipe) :
    written recipe = recipe.stated ↔ recipe.env.standIn = .empty := by
  constructor
  · intro h
    exact (congrArg (fun other ↦ other.env.standIn) h).symm
  · intro h
    rw [written, ← h]
    rfl

/-- A default does not replace what is kept. -/
theorem keeps_getD {α : Type} {first effective : Option α} (h : Keeps first effective) (default : α) :
    Keeps first (some (effective.getD default)) := by
  cases first with
  | none => rfl
  | some value =>
    have hvalue : some value = effective := h
    rw [← hvalue]
    rfl

/-- What a recipe keeps of a file, its written form keeps as well where the file has no stand-ins. -/
theorem keeps_written_iff {file recipe : Recipe} (h : Keeps file recipe) :
    Keeps file (written recipe) ↔ file.env.standIn = .empty := by
  constructor
  · intro hwritten
    have hstandIn : merge file.env.standIn unset = unset :=
      congrArg (fun other ↦ other.env.standIn) hwritten
    rwa [LawfulMerge.merge_unset] at hstandIn
  · intro hnone
    have hbackend : merge file.backend (some recipe.theBackend) = some recipe.theBackend :=
      keeps_getD (congrArg Recipe.backend h) Backend.native
    have hmonorepo : merge file.monorepo (some recipe.isMonorepo) = some recipe.isMonorepo :=
      keeps_getD (congrArg Recipe.monorepo h) false
    have henv : merge file.env (written recipe).env = (written recipe).env := by
      have hlists : merge file.env recipe.env = recipe.env := congrArg Recipe.env h
      apply Env.ext
      · exact (congrArg Env.requiredLocal hlists :)
      · exact (congrArg Env.generated hlists :)
      · exact (congrArg Env.secrets hlists :)
      · show merge file.env.standIn unset = unset
        rw [LawfulMerge.merge_unset]
        exact hnone
    have hrest : merge file (written recipe) = { merge file recipe with
        backend := merge file.backend (some recipe.theBackend)
        monorepo := merge file.monorepo (some recipe.isMonorepo)
        env := merge file.env (written recipe).env } := rfl
    have hkept : merge file recipe = recipe := h
    rw [Keeps, hrest, hkept, hbackend, hmonorepo, henv]
    rfl

section Roundtrip

variable {toml : Text → Option Document}
  (htoml : ∀ text tables, Toml.read text = some tables → toml text = some tables)
  {gaps : List Gap} (hgaps : ∀ gap ∈ gaps, gap.Safe)
include htoml hgaps

/-- Assumes: the reader takes the TOML that a program writes, and the texts of the gaps can stand in
comments. -/
theorem parse_render (recipe : Recipe) : parse toml (render recipe gaps) = some (written recipe) := by
  have hread : Toml.read (render recipe gaps) = some (document recipe) :=
    read_of_writes (writes_render recipe hgaps) (distinct_document recipe)
  rw [parse, htoml _ _ hread, Option.bind_some, decode_document]

/-- Reading back gives the recipe with its defaults, and a file that a person wrote keeps its keys over
being written again, where there are no stand-ins and nowhere else. -/
theorem reads_back_iff :
    (∀ recipe : Recipe, parse toml (render recipe gaps) = some recipe.stated ↔
      recipe.env.standIn = .empty) ∧
    ∀ file inferred : Recipe, (∃ after, parse toml (render (merge file inferred) gaps) = some after ∧
      Keeps file after) ↔ file.env.standIn = .empty := by
  constructor
  · intro recipe
    rw [parse_render htoml hgaps, Option.some_inj]
    exact written_eq_stated_iff recipe
  · intro file inferred
    rw [← keeps_written_iff (keeps_merge file inferred), parse_render htoml hgaps]
    constructor
    · rintro ⟨after, hafter, hkeeps⟩
      exact Option.some_inj.mp hafter ▸ hkeeps
    · exact fun hkeeps ↦ ⟨_, rfl, hkeeps⟩

end Roundtrip

/-- The recipe that says of one generated name what stands in for it. -/
def withStandIn : Recipe :=
  { (unset : Recipe) with env := { (unset : Env) with
    generated := [⟨"TOKEN".toList, rfl⟩]
    standIn := ⟨[(⟨"TOKEN".toList, rfl⟩, "dev".toList)], List.pairwise_singleton _ _⟩ } }

/-- A stand-in that a recipe has is not there after the recipe was written and read again. -/
theorem standIn_lost : ¬∀ (recipe : Recipe) (gaps : List Gap),
    parse Toml.read (render recipe gaps) = some recipe.stated := by
  intro h
  have hwritten := parse_render (fun _ _ ↦ id) (List.forall_mem_nil _) withStandIn
  rw [h, Option.some_inj] at hwritten
  have hrows : withStandIn.env.standIn.rows = [] :=
    congrArg (fun recipe ↦ recipe.env.standIn.rows) hwritten
  exact List.cons_ne_nil _ _ hrows

/-- A gap with a note and a candidate. -/
def servicesGap : Gap := ⟨.services, some "1 service was found".toList, ["redis".toList]⟩

theorem servicesGap_safe : ∀ gap ∈ [servicesGap], gap.Safe :=
  List.forall_mem_singleton.mpr ⟨by decide, by decide⟩

theorem reads_back_of_read :
    (∀ recipe : Recipe, parse Toml.read (render recipe [servicesGap]) = some recipe.stated ↔
      recipe.env.standIn = .empty) ∧
    ∀ file inferred : Recipe, (∃ after,
      parse Toml.read (render (merge file inferred) [servicesGap]) = some after ∧ Keeps file after) ↔
        file.env.standIn = .empty :=
  reads_back_iff (fun _ _ ↦ id) servicesGap_safe

end Nodal.Recipes
