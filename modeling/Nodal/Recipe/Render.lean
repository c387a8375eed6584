import Mathlib.Data.List.Forall2
import Nodal.Foundation.Toml
import Nodal.Recipe.Model

/-!
# Writing a recipe out

`recipe/render.rs` and `recipe/gap.rs`: the file is rendered section by section, so that each gap stands
above the key it is about. What is unset is left out or written as a comment, and the lists that a person
is meant to fill are written even where they are empty.

The file says the recipe's `document` (`writes_render`), as long as the texts of the gaps, which come from
outside, are such that a comment can hold them. The document has the recipe with its defaults, and no
stand-ins: no section of the file writes them.
-/

set_option autoImplicit false

namespace Nodal.Recipes

open Foundation Text Toml Model

/-! ### Words -/

/-- The word that stands for a value of an enumeration. -/
class Word (α : Type) where
  token : α → Text
  all : List α
  /-- Each word is found again. -/
  find_token : ∀ value, all.find? (fun other ↦ decide (token other = token value)) = some value

def Backend.token : Backend → Text
  | .native => "native".toList
  | .devcontainer => "devcontainer".toList
  | .nix => "nix".toList

def PackageManager.token : PackageManager → Text
  | .pnpm => "pnpm".toList
  | .yarn => "yarn".toList
  | .npm => "npm".toList
  | .bun => "bun".toList
  | .cargo => "cargo".toList
  | .uv => "uv".toList
  | .poetry => "poetry".toList
  | .pip => "pip".toList

def TaskCache.token : TaskCache → Text
  | .turborepo => "turborepo".toList
  | .nx => "nx".toList

def MigrationTool.token : MigrationTool → Text
  | .supabase => "supabase".toList
  | .prisma => "prisma".toList
  | .drizzle => "drizzle".toList
  | .alembic => "alembic".toList
  | .unknown => "unknown".toList

def DbKind.token : DbKind → Text
  | .supabaseLocal => "supabase-local".toList
  | .postgres => "postgres".toList

instance : Word Backend where
  token := Backend.token
  all := [.native, .devcontainer, .nix]
  find_token value := by cases value <;> rfl

instance : Word PackageManager where
  token := PackageManager.token
  all := [.pnpm, .yarn, .npm, .bun, .cargo, .uv, .poetry, .pip]
  find_token value := by cases value <;> rfl

instance : Word TaskCache where
  token := TaskCache.token
  all := [.turborepo, .nx]
  find_token value := by cases value <;> rfl

instance : Word MigrationTool where
  token := MigrationTool.token
  all := [.supabase, .prisma, .drizzle, .alembic, .unknown]
  find_token value := by cases value <;> rfl

instance : Word DbKind where
  token := DbKind.token
  all := [.supabaseLocal, .postgres]
  find_token value := by cases value <;> rfl

export Word (token)

/-! ### Gaps -/

/-- The key a gap is about. -/
inductive GapKey
  | toolchain
  | db
  | services
  | envRequiredLocal
  deriving DecidableEq

/-- What each gap asks and which key answers it. -/
def QUESTIONS : List (GapKey × Text × Text) := [
  (.toolchain, "toolchain".toList,
    "which tool versions this project needs; no pin file and no engines field to read".toList),
  (.db, "db.migrations_dir".toList, "where the migrations live, and the command that applies them".toList),
  (.services, "services".toList,
    "which services are shared between units and which each unit needs its own copy of".toList),
  (.envRequiredLocal, "env.required_local".toList,
    "which declared environment names local development needs; the declared file is a superset of what a working copy uses".toList)]

theorem questions_ne_nil : QUESTIONS ≠ [] := List.cons_ne_nil _ _

def GapKey.row (key : GapKey) : GapKey × Text × Text :=
  (QUESTIONS.find? fun row ↦ decide (row.1 = key)).getD (QUESTIONS.head questions_ne_nil)

def GapKey.tomlKey (key : GapKey) : Text := key.row.2.1

def GapKey.question (key : GapKey) : Text := key.row.2.2

/-- One thing a person still has to say, and what is known about it. -/
structure Gap where
  key : GapKey
  note : Option Text
  candidates : List Text
  deriving DecidableEq

/-! ### Lines -/

/-- Four hexadecimal digits. -/
def hex4 (n : ℕ) : Text :=
  [16 ^ 3, 16 ^ 2, 16, 1].map fun place ↦
    let digit := n / place % 16
    if digit < 10 then Char.ofNat (48 + digit) else Char.ofNat (55 + digit)

/-- One character of a basic string. -/
def quoted (c : Char) : Text :=
  if c = '"' then ['\\', '"']
  else if c = '\\' then ['\\', '\\']
  else if c = '\n' then ['\\', 'n']
  else if c = '\r' then ['\\', 'r']
  else if c = '\t' then ['\\', 't']
  else if c.toNat < 0x20 ∨ c.toNat = 0x7f then '\\' :: 'u' :: hex4 c.toNat
  else [c]

/-- A basic string. -/
def quote (value : Text) : Text := '"' :: (value.flatMap quoted ++ ['"'])

/-- A key, bare where it may be and quoted where it may not. -/
def quoteKey (key : Text) : Text :=
  if key ≠ [] ∧ key.all isBare = true then key else quote key

def keyString (key value : Text) : Text := quoteKey key ++ " = ".toList ++ quote value ++ ['\n']

def keyBool (key : Text) (value : Bool) : Text :=
  key ++ " = ".toList ++ (if value then "true".toList else "false".toList) ++ ['\n']

def keyNumber (key : Text) (value : ℕ) : Text := key ++ " = ".toList ++ decimal value ++ ['\n']

def keyEnum {α : Type} [Word α] (key : Text) (value : α) : Text := keyString key (token value)

/-- A list on one line, or where it is longer on a line for each of its strings. -/
def keyStrings (key : Text) (values : List Text) : Text :=
  let items := values.map quote
  if 3 < items.length then
    key ++ " = [\n  ".toList ++ List.intercalate ",\n  ".toList items ++ "\n]\n".toList
  else key ++ " = [".toList ++ List.intercalate ", ".toList items ++ "]\n".toList

def keyPaths (key : Text) (paths : List Text) : Text := keyStrings key paths

def openSection (name : Text) : Text := "\n[".toList ++ name ++ "]\n".toList

/-- A line that is a comment. -/
def remark (body : Text) : Text := '#' :: body ++ ['\n']

/-- Every gap about a key, as the comments above it. -/
def writeGaps (gaps : List Gap) (key : Text) : Text :=
  (gaps.filter fun gap ↦ decide (gap.key.tomlKey = key)).flatMap fun gap ↦
    remark (" GAP: ".toList ++ gap.key.question) ++
      gap.note.toList.flatMap (fun note ↦ remark (' ' :: note ++ ['.'])) ++
      gap.candidates.flatMap fun candidate ↦ remark ("   ".toList ++ candidate)

/-! ### Sections -/

def HEADER : Text :=
  remark " nodal.toml — what this project needs to be a working copy.".toList ++
  remark [] ++
  remark " Written by `nodal init` from the project's own files. Lines marked GAP are the ones".toList ++
  remark " it could not read anywhere: answer those. Everything else is a confirmation, so".toList ++
  remark " correct what is wrong and leave what is right.".toList

/-- A line for a key that is set. -/
def ifSet {α : Type} (value : Option α) (line : α → Text) : Text := value.elim [] line

/-- What is there for a list that is not empty. -/
def ifAny {α β : Type} (values : List α) (line : List α → List β) : List β :=
  if values.isEmpty then [] else line values

def topLevel (recipe : Recipe) : Text :=
  ['\n'] ++
  keyEnum "backend".toList recipe.theBackend ++
  ifAny recipe.packageManager (fun managers ↦
    keyStrings "package_manager".toList (managers.map token)) ++
  ifSet recipe.packageManagerPin (fun pin ↦ keyString "package_manager_pin".toList pin.text) ++
  keyBool "monorepo".toList recipe.isMonorepo ++
  ifSet recipe.taskCache (keyEnum "task_cache".toList) ++
  ifSet recipe.dockerfile (keyString "dockerfile".toList) ++
  ifAny recipe.compose (keyPaths "compose".toList)

def toolchain (recipe : Recipe) (gaps : List Gap) : Text :=
  openSection "toolchain".toList ++ writeGaps gaps "toolchain".toList ++
    recipe.toolchain.rows.flatMap fun row ↦ keyString row.1.text row.2.text

/-- The keys of the commands, with the lines they have. -/
def Commands.table (commands : Commands) : List (Text × Option CommandLine) := [
  ("dev".toList, commands.dev),
  ("build".toList, commands.build),
  ("test".toList, commands.test),
  ("lint".toList, commands.lint),
  ("typecheck".toList, commands.typecheck),
  ("migrate".toList, commands.migrate),
  ("seed".toList, commands.seed),
  ("reset".toList, commands.reset)]

def commands (recipe : Recipe) : Text :=
  openSection "commands".toList ++
    recipe.commands.table.flatMap fun row ↦ ifSet row.2 fun line ↦ keyString row.1 line.text

def db (recipe : Recipe) (gaps : List Gap) : Text :=
  openSection "db".toList ++ writeGaps gaps "db.migrations_dir".toList ++
  ifSet recipe.db.kind (keyEnum "kind".toList) ++
  ifSet recipe.db.tool (keyEnum "tool".toList) ++
  ifSet recipe.db.migrationsDir (keyString "migrations_dir".toList) ++
  ifAny recipe.db.urlVar (fun names ↦ keyStrings "url_var".toList (names.map Scalar.text)) ++
  ifAny recipe.db.fixedPorts.rows (fun rows ↦ openSection "db.fixed_ports".toList ++
    rows.flatMap fun row ↦ keyNumber (quoteKey row.1.text) row.2)

def services (recipe : Recipe) (gaps : List Gap) : Text :=
  openSection "services".toList ++ writeGaps gaps "services".toList ++
  keyStrings "shared".toList (recipe.services.shared.map Scalar.text) ++
  keyStrings "per_unit".toList (recipe.services.perUnit.map Scalar.text)

def env (recipe : Recipe) (gaps : List Gap) : Text :=
  openSection "env".toList ++ writeGaps gaps "env.required_local".toList ++
  keyStrings "required_local".toList (recipe.env.requiredLocal.map Scalar.text) ++
  keyStrings "generated".toList (recipe.env.generated.map Scalar.text) ++
  keyStrings "secrets".toList (recipe.env.secrets.map Scalar.text)

def base (recipe : Recipe) : Text :=
  openSection "base".toList ++
  remark " Paths no unit home receives. Regenerated output belongs here.".toList ++
  keyPaths "exclude".toList recipe.base.exclude ++
  remark " Paths a home removes because their content records the path it was made at.".toList ++
  keyPaths "invalidate".toList recipe.base.invalidate

/-- The keys of the hooks, with the lines they have. -/
def Hooks.table (hooks : Hooks) : List (Text × Option CommandLine) := [
  ("pre_new".toList, hooks.preNew),
  ("post_new".toList, hooks.postNew),
  ("pre_merge".toList, hooks.preMerge),
  ("post_merge".toList, hooks.postMerge),
  ("pre_reclaim".toList, hooks.preReclaim),
  ("post_reclaim".toList, hooks.postReclaim)]

def DEFAULT_TRASH_RETENTION_DAYS : ℕ := 14

def DEFAULT_IDLE_HOURS : ℕ := 8

/-- The keys that are policy: what is unset is written as the default it takes, in a comment. -/
def policy (recipe : Recipe) : Text :=
  openSection "hooks".toList ++
  remark " Run around a lifecycle operation, with the NODAL_* variables set and".toList ++
  remark " \x7bbranch\x7d, \x7brepo_root\x7d, \x7bunit_path\x7d, \x7bhash_port\x7d and \x7bsanitize\x7d filled in.".toList ++
  recipe.hooks.table.flatMap (fun row ↦
    row.2.elim (remark (' ' :: row.1 ++ " = \"\"".toList)) fun line ↦ keyString row.1 line.text) ++
  openSection "sync".toList ++
  recipe.sync.autoIrreversible.elim (remark " auto_irreversible = false".toList)
    (keyBool "auto_irreversible".toList) ++
  openSection "reclaim".toList ++
  recipe.reclaim.trashRetention.elim
    (remark (" trash_retention = ".toList ++ decimal DEFAULT_TRASH_RETENTION_DAYS))
    (fun days ↦ keyNumber "trash_retention".toList days) ++
  openSection "lock".toList ++
  recipe.lock.idleHours.elim (remark (" idle_hours = ".toList ++ decimal DEFAULT_IDLE_HOURS))
    (fun hours ↦ keyNumber "idle_hours".toList hours)

/-- A recipe as the file a person will edit, with the gaps above the keys they are about. -/
def render (recipe : Recipe) (gaps : List Gap) : Text :=
  HEADER ++ topLevel recipe ++ toolchain recipe gaps ++ commands recipe ++ db recipe gaps ++
    services recipe gaps ++ env recipe gaps ++ base recipe ++ policy recipe

/-! ### Strings are read back -/

theorem hexCode_hex4 : ∀ n < 128, hexCode (hex4 n)[0]! (hex4 n)[1]! (hex4 n)[2]! (hex4 n)[3]! =
    some (Char.ofNat n) := by
  decide

theorem hex4_eq (n : ℕ) : hex4 n = [(hex4 n)[0]!, (hex4 n)[1]!, (hex4 n)[2]!, (hex4 n)[3]!] := rfl

theorem stringBody_quoted (c : Char) (rest : Text) :
    stringBody (quoted c ++ rest) = (stringBody rest).map fun found ↦ (c :: found.1, found.2) := by
  unfold quoted
  split_ifs with hquote hslash hnewline hreturn htab hcontrol
  · subst hquote
    exact stringBody_escaped rfl (by decide)
  · subst hslash
    exact stringBody_escaped rfl (by decide)
  · subst hnewline
    exact stringBody_escaped rfl (by decide)
  · subst hreturn
    exact stringBody_escaped rfl (by decide)
  · subst htab
    exact stringBody_escaped rfl (by decide)
  · have hcode := hexCode_hex4 c.toNat (by omega)
    rw [Char.ofNat_toNat] at hcode
    rw [hex4_eq]
    exact stringBody_code hcode
  · rw [not_or] at hcontrol
    refine stringBody_plain ?_ hquote hslash
    rw [isPlain, Bool.or_eq_true, decide_eq_true_eq, Bool.and_eq_true, decide_eq_true_eq,
      decide_eq_true_eq]
    exact .inr ⟨by omega, hcontrol.2⟩

theorem quoted_quote (value : Text) : Quoted (quote value) value := by
  refine ⟨value.flatMap quoted ++ ['"'], rfl, fun rest ↦ ?_⟩
  induction value with
  | nil => exact stringBody_quote
  | cons c value ih =>
    have hcut : (c :: value).flatMap quoted ++ ['"'] ++ rest =
        quoted c ++ (value.flatMap quoted ++ ['"'] ++ rest) := by
      simp
    rw [hcut, stringBody_quoted, ih]
    rfl

theorem isKey_quoteKey (name : Text) : IsKey (quoteKey name) name := by
  unfold quoteKey
  split_ifs with hbare
  · exact isKey_bare hbare.1 hbare.2
  · exact (quoted_quote name).isKey

theorem quoted_map (values : List Text) : List.Forall₂ Quoted (values.map quote) values := by
  rw [List.forall₂_map_left_iff]
  exact List.forall₂_same.mpr fun value _ ↦ quoted_quote value

/-! ### Rows are read back -/

theorem writes_keyString (name value : Text) : Writes (keyString name value) [.entry name (.string value)] :=
  writes_row (isKey_quoteKey name) (quoted_quote value).isValue

section Rows

variable {name : Text} (hname : name ≠ [] ∧ name.all isBare = true)
include hname

theorem writes_keyBool (value : Bool) : Writes (keyBool name value) [.entry name (.boolean value)] :=
  writes_row (isKey_bare hname.1 hname.2) (isValue_boolean value)

theorem writes_keyStrings (values : List Text) :
    Writes (keyStrings name values) [.entry name (.strings values)] := by
  have hkey := isKey_bare hname.1 hname.2
  have hquoted := quoted_map values
  have hindent : ∀ c ∈ "\n  ".toList, isBlank c = true := List.all_eq_true.mp rfl
  have hclose : ∀ c ∈ ['\n'], isBlank c = true := List.all_eq_true.mp rfl
  have hspace : ∀ c ∈ [' '], isBlank c = true := List.all_eq_true.mp rfl
  have hnone : ∀ c ∈ ([] : Text), isBlank c = true := List.all_eq_true.mp rfl
  simp only [keyStrings]
  by_cases hlong : 3 < (values.map quote).length
  · have hrow := writes_row hkey (isValue_strings hindent hindent hclose hquoted)
    rw [if_pos hlong]
    simpa using hrow
  · have hrow := writes_row hkey (isValue_strings hnone hspace hnone hquoted)
    rw [if_neg hlong]
    simpa using hrow

end Rows

theorem writes_keyNumber {written name : Text} (hkey : IsKey written name) {value : ℕ}
    (hvalue : value < 2 ^ 63) : Writes (keyNumber written value) [.entry name (.integer value)] :=
  writes_row hkey (isValue_integer hvalue)

/-! ### Comments say nothing -/

theorem writes_remark {body : Text} (h : Commentable body) : Writes (remark body) [] := writes_comment h

/-- Pieces that say nothing, one after the other. -/
theorem writes_silent {α : Type} {written : α → Text} {pieces : List α}
    (h : ∀ piece ∈ pieces, Writes (written piece) []) : Writes (pieces.flatMap written) [] := by
  have hnothing := @Writes.flatMap _ written (fun _ ↦ []) pieces h
  rwa [List.flatMap_eq_nil_iff.mpr fun _ _ ↦ rfl] at hnothing

/-- The texts of a gap that come from outside can stand in comments. -/
structure Gap.Safe (gap : Gap) : Prop where
  note : ∀ note ∈ gap.note, Commentable (' ' :: note ++ ['.'])
  candidates : ∀ candidate ∈ gap.candidates, Commentable ("   ".toList ++ candidate)

/-- A comment of the program's own. -/
theorem commentable_literal {chars : Text} (h : Commentable chars) :
    Commentable (String.ofList chars).toList := by
  rwa [String.toList_ofList]

theorem writes_HEADER : Writes HEADER [] :=
  Writes.append (Writes.append (Writes.append (Writes.append
    (writes_remark (commentable_literal (by decide +kernel))) (writes_remark (by decide)))
    (writes_remark (commentable_literal (by decide +kernel)))) (writes_remark (commentable_literal (by decide +kernel))))
    (writes_remark (commentable_literal (by decide +kernel)))

theorem questions_commentable : ∀ row ∈ QUESTIONS, Commentable row.2.2 := by
  simp only [QUESTIONS, List.forall_mem_cons]
  exact ⟨commentable_literal (by decide +kernel), commentable_literal (by decide +kernel),
    commentable_literal (by decide +kernel), commentable_literal (by decide +kernel), List.forall_mem_nil _⟩

theorem row_mem_QUESTIONS (key : GapKey) : key.row ∈ QUESTIONS := by
  unfold GapKey.row
  cases hrow : QUESTIONS.find? fun row ↦ decide (row.1 = key) with
  | none => exact List.head_mem questions_ne_nil
  | some row => exact List.mem_of_find?_eq_some hrow

/-- Plain characters before a comment's own. -/
theorem commentable_append {lead body : Text} (hlead : lead.all isPlain = true) (hnewline : '\n' ∉ lead)
    (h : Commentable body) : Commentable (lead ++ body) := by
  constructor
  · rw [List.mem_append, not_or]
    exact ⟨hnewline, h.1⟩
  · have hbody := h.2
    unfold chomp at hbody ⊢
    by_cases hempty : body = []
    · subst hempty
      rw [List.append_nil]
      split_ifs
      · exact List.all_eq_true.mpr fun c hc ↦
          List.all_eq_true.mp hlead c (List.mem_of_mem_dropLast hc)
      · exact hlead
    · rw [List.getLast?_append_of_ne_nil _ hempty, List.dropLast_append_of_ne_nil hempty]
      split_ifs at hbody ⊢ with hreturn
      · rw [List.all_append, hlead, hbody]
        rfl
      · rw [List.all_append, hlead, hbody]
        rfl

theorem question_commentable (key : GapKey) : Commentable (" GAP: ".toList ++ key.question) :=
  commentable_append (by decide) (by decide) (questions_commentable _ (row_mem_QUESTIONS key))

/-- Assumes: the texts of the gaps can stand in comments. -/
theorem writes_writeGaps {gaps : List Gap} (h : ∀ gap ∈ gaps, gap.Safe) (key : Text) :
    Writes (writeGaps gaps key) [] := by
  refine writes_silent fun gap hgap ↦ ?_
  have hsafe := h gap (List.mem_of_mem_filter hgap)
  have hnote : Writes (gap.note.toList.flatMap fun note ↦ remark (' ' :: note ++ ['.'])) [] :=
    writes_silent fun note hnote ↦ writes_remark (hsafe.note note (Option.mem_toList.mp hnote))
  have hcandidates : Writes (gap.candidates.flatMap fun candidate ↦
      remark ("   ".toList ++ candidate)) [] :=
    writes_silent fun candidate hmem ↦ writes_remark (hsafe.candidates candidate hmem)
  exact Writes.append (Writes.append (writes_remark (question_commentable gap.key)) hnote) hcandidates

/-! ### What the file says -/

/-- A key with the value it is set to, where it is set. -/
abbrev Field := Text × Option Value

/-- The rows of the keys that are set. -/
def present (fields : List Field) : List (Text × Value) :=
  fields.filterMap fun field ↦ field.2.map (Prod.mk field.1)

/-- A list, where it is not empty. -/
def listed (values : List Text) : Option Value :=
  if values.isEmpty then none else some (.strings values)

def topFields (recipe : Recipe) : List Field := [
  ("backend".toList, recipe.backend.map fun backend ↦ .string (token backend)),
  ("package_manager".toList, listed (recipe.packageManager.map token)),
  ("package_manager_pin".toList, recipe.packageManagerPin.map fun pin ↦ .string pin.text),
  ("monorepo".toList, recipe.monorepo.map .boolean),
  ("task_cache".toList, recipe.taskCache.map fun cache ↦ .string (token cache)),
  ("dockerfile".toList, recipe.dockerfile.map .string),
  ("compose".toList, listed recipe.compose)]

def toolchainRows (recipe : Recipe) : List (Text × Value) :=
  recipe.toolchain.rows.map fun row ↦ (row.1.text, .string row.2.text)

def commandFields (recipe : Recipe) : List Field :=
  recipe.commands.table.map fun row ↦ (row.1, row.2.map fun line ↦ .string line.text)

def dbFields (recipe : Recipe) : List Field := [
  ("kind".toList, recipe.db.kind.map fun kind ↦ .string (token kind)),
  ("tool".toList, recipe.db.tool.map fun tool ↦ .string (token tool)),
  ("migrations_dir".toList, recipe.db.migrationsDir.map .string),
  ("url_var".toList, listed (recipe.db.urlVar.map Scalar.text))]

def portRows (recipe : Recipe) : List (Text × Value) :=
  recipe.db.fixedPorts.rows.map fun row ↦ (row.1.text, .integer row.2)

/-- The lists of names that are written even where they are empty. -/
def serviceLists (recipe : Recipe) : List (Text × List Text) := [
  ("shared".toList, recipe.services.shared.map Scalar.text),
  ("per_unit".toList, recipe.services.perUnit.map Scalar.text)]

def envLists (recipe : Recipe) : List (Text × List Text) := [
  ("required_local".toList, recipe.env.requiredLocal.map Scalar.text),
  ("generated".toList, recipe.env.generated.map Scalar.text),
  ("secrets".toList, recipe.env.secrets.map Scalar.text)]

def baseLists (recipe : Recipe) : List (Text × List Text) := [
  ("exclude".toList, recipe.base.exclude),
  ("invalidate".toList, recipe.base.invalidate)]

/-- The rows of lists that are written whatever they hold. -/
def listRows (lists : List (Text × List Text)) : List (Text × Value) :=
  lists.map fun list ↦ (list.1, .strings list.2)

def hookFields (recipe : Recipe) : List Field :=
  recipe.hooks.table.map fun row ↦ (row.1, row.2.map fun line ↦ .string line.text)

def syncFields (recipe : Recipe) : List Field :=
  [("auto_irreversible".toList, recipe.sync.autoIrreversible.map .boolean)]

def reclaimFields (recipe : Recipe) : List Field :=
  [("trash_retention".toList, recipe.reclaim.trashRetention.map fun days ↦ .integer days.val)]

def lockFields (recipe : Recipe) : List Field :=
  [("idle_hours".toList, recipe.lock.idleHours.map fun hours ↦ .integer hours.val)]

/-- The table of the ports, where there are any. -/
def portsTable (recipe : Recipe) : Document :=
  ifAny (portRows recipe) fun rows ↦ [⟨["db".toList, "fixed_ports".toList], rows⟩]

/-- The tables under headers that a file says of a recipe. -/
def sections (recipe : Recipe) : Document :=
  [⟨["toolchain".toList], toolchainRows recipe⟩,
    ⟨["commands".toList], present (commandFields recipe)⟩,
    ⟨["db".toList], present (dbFields recipe)⟩] ++ portsTable recipe ++
  [⟨["services".toList], listRows (serviceLists recipe)⟩,
    ⟨["env".toList], listRows (envLists recipe)⟩,
    ⟨["base".toList], listRows (baseLists recipe)⟩,
    ⟨["hooks".toList], present (hookFields recipe)⟩,
    ⟨["sync".toList], present (syncFields recipe)⟩,
    ⟨["reclaim".toList], present (reclaimFields recipe)⟩,
    ⟨["lock".toList], present (lockFields recipe)⟩]

/-- What a file says of a recipe. -/
def document (recipe : Recipe) : Document :=
  ⟨[], present (topFields recipe.stated)⟩ :: sections recipe

/-! ### Every section says its table -/

/-- What a key says, where it is set. -/
def saidOf (field : Field) : List Statement := field.2.toList.map (.entry field.1)

theorem entries_present (name : List Text) (fields : List Field) :
    (Table.mk name (present fields)).entries = fields.flatMap saidOf := by
  induction fields with
  | nil => rfl
  | cons field fields ih =>
    obtain ⟨key, value⟩ := field
    rw [List.flatMap_cons, ← ih]
    cases value <;> rfl

theorem writes_ifSet {α : Type} {name : Text} {line : α → Text} {said : α → Value} (value : Option α)
    (h : ∀ given, Writes (line given) [.entry name (said given)]) :
    Writes (ifSet value line) (saidOf (name, value.map said)) := by
  cases value with
  | none => exact Writes.nil
  | some given => exact h given

theorem writes_ifAny {α : Type} {name : Text} {line : List α → Text} {said : α → Text} (values : List α)
    (h : Writes (line values) [.entry name (.strings (values.map said))]) :
    Writes (ifAny values line) (saidOf (name, listed (values.map said))) := by
  cases values with
  | nil => exact Writes.nil
  | cons first values => exact h

/-- A key with a line in a comment where it is not set. -/
theorem writes_elim {α : Type} {name body : Text} {line : α → Text} {said : α → Value} (value : Option α)
    (hbody : Commentable body) (h : ∀ given, Writes (line given) [.entry name (said given)]) :
    Writes (value.elim (remark body) line) (saidOf (name, value.map said)) := by
  cases value with
  | none => exact writes_remark hbody
  | some given => exact h given

theorem writes_section {names : List Text} (hne : names ≠ [])
    (h : ∀ name ∈ names, name ≠ [] ∧ name.all isBare = true) :
    Writes (openSection (List.intercalate ['.'] names)) [.header names] := by
  have hsection := Writes.append writes_blank (writes_header hne h)
  simpa [openSection] using hsection

theorem writes_section_one {name : Text} (h : name ≠ [] ∧ name.all isBare = true) :
    Writes (openSection name) [.header [name]] := by
  have hsection := @writes_section [name] (List.cons_ne_nil _ _) (List.forall_mem_singleton.mpr h)
  rwa [List.intercalate_singleton] at hsection

theorem writes_topLevel (recipe : Recipe) :
    Writes (topLevel recipe) (Table.mk [] (present (topFields recipe.stated))).entries := by
  have hbackend : Writes (keyEnum "backend".toList recipe.theBackend)
      (saidOf ("backend".toList, recipe.stated.backend.map fun backend ↦ .string (token backend))) :=
    writes_keyString _ _
  have hmanagers := @writes_ifAny PackageManager "package_manager".toList
    (fun managers ↦ keyStrings "package_manager".toList (managers.map token)) token
    recipe.packageManager (writes_keyStrings (by decide) _)
  have hpin := writes_ifSet recipe.packageManagerPin fun pin ↦
    writes_keyString "package_manager_pin".toList pin.text
  have hmonorepo : Writes (keyBool "monorepo".toList recipe.isMonorepo)
      (saidOf ("monorepo".toList, recipe.stated.monorepo.map .boolean)) :=
    writes_keyBool (by decide) _
  have hcache := @writes_ifSet TaskCache "task_cache".toList (keyEnum "task_cache".toList)
    (fun cache ↦ .string (token cache)) recipe.taskCache fun cache ↦ writes_keyString _ _
  have hdockerfile := writes_ifSet recipe.dockerfile (writes_keyString "dockerfile".toList)
  have hpaths : Writes (keyPaths "compose".toList recipe.compose)
      [.entry "compose".toList (.strings (recipe.compose.map id))] := by
    rw [List.map_id]
    exact writes_keyStrings (by decide) _
  have hcompose := writes_ifAny recipe.compose hpaths
  have hall := Writes.append (Writes.append (Writes.append (Writes.append (Writes.append (Writes.append
    (Writes.append writes_blank hbackend) hmanagers) hpin) hmonorepo) hcache) hdockerfile) hcompose
  rw [entries_present]
  simpa only [topLevel, topFields, Recipe.stated, List.map_id, List.flatMap_cons, List.flatMap_nil,
    List.append_nil, List.nil_append, List.append_assoc] using hall

/-- What a table under a header says. -/
def saidBy (table : Table) : List Statement := .header table.name :: table.entries

/-- Rows written one after the other. -/
theorem writes_rows {α : Type} {name : List Text} {rows : List α} {written : α → Text}
    {row : α → Text × Value} (h : ∀ given, Writes (written given) [.entry (row given).1 (row given).2]) :
    Writes (rows.flatMap written) (Table.mk name (rows.map row)).entries := by
  have hentries : (Table.mk name (rows.map row)).entries =
      rows.flatMap fun given ↦ [.entry (row given).1 (row given).2] := by
    induction rows with
    | nil => rfl
    | cons given rows ih => exact congrArg (List.cons _) ih
  rw [hentries]
  exact Writes.flatMap fun given _ ↦ h given

theorem writes_toolchain (recipe : Recipe) {gaps : List Gap} (h : ∀ gap ∈ gaps, gap.Safe) :
    Writes (toolchain recipe gaps) (saidBy ⟨["toolchain".toList], toolchainRows recipe⟩) :=
  Writes.append (Writes.append (writes_section_one (by decide)) (writes_writeGaps h _))
    (writes_rows fun _ ↦ writes_keyString _ _)

theorem writes_table {table : List (Text × Option CommandLine)} {missing : Text → Text}
    (h : ∀ name, (name ∈ table.map Prod.fst) → Writes (missing name) []) :
    Writes (table.flatMap fun row ↦ row.2.elim (missing row.1) fun line ↦ keyString row.1 line.text)
      ((table.map fun row ↦ (row.1, row.2.map fun line ↦ Value.string line.text)).flatMap saidOf) := by
  rw [List.flatMap_map]
  refine Writes.flatMap fun row hrow ↦ ?_
  obtain ⟨name, value⟩ := row
  cases value with
  | none => exact h name (List.mem_map_of_mem hrow)
  | some line => exact writes_keyString _ _

theorem writes_commands (recipe : Recipe) :
    Writes (commands recipe) (saidBy ⟨["commands".toList], present (commandFields recipe)⟩) := by
  rw [saidBy, entries_present]
  exact Writes.append (writes_section_one (by decide)) (writes_table fun _ _ ↦ Writes.nil)

theorem writes_ports (recipe : Recipe) :
    Writes (ifAny recipe.db.fixedPorts.rows fun rows ↦ openSection "db.fixed_ports".toList ++
      rows.flatMap fun row ↦ keyNumber (quoteKey row.1.text) row.2)
      ((portsTable recipe).flatMap saidBy) := by
  have hsection := @writes_section ["db".toList, "fixed_ports".toList] (List.cons_ne_nil _ _) (by decide)
  have hrows := @writes_rows _ ["db".toList, "fixed_ports".toList] recipe.db.fixedPorts.rows
    (fun row ↦ keyNumber (quoteKey row.1.text) row.2) (fun row ↦ (row.1.text, .integer row.2))
    fun row ↦ writes_keyNumber (isKey_quoteKey _) (by omega)
  have hall := Writes.append hsection hrows
  unfold portsTable portRows ifAny
  rw [List.isEmpty_map]
  by_cases hempty : recipe.db.fixedPorts.rows.isEmpty = true
  · rw [if_pos hempty, if_pos hempty]
    exact Writes.nil
  · rw [if_neg hempty, if_neg hempty, List.flatMap_singleton]
    exact hall

theorem writes_db (recipe : Recipe) {gaps : List Gap} (h : ∀ gap ∈ gaps, gap.Safe) :
    Writes (db recipe gaps) (saidBy ⟨["db".toList], present (dbFields recipe)⟩ ++
      (portsTable recipe).flatMap saidBy) := by
  have hname : "db".toList ≠ [] ∧ "db".toList.all isBare = true := by decide
  have hkind := @writes_ifSet DbKind "kind".toList (keyEnum "kind".toList)
    (fun kind ↦ .string (token kind)) recipe.db.kind fun _ ↦ writes_keyString _ _
  have htool := @writes_ifSet MigrationTool "tool".toList (keyEnum "tool".toList)
    (fun tool ↦ .string (token tool)) recipe.db.tool fun _ ↦ writes_keyString _ _
  have hdirectory := writes_ifSet recipe.db.migrationsDir (writes_keyString "migrations_dir".toList)
  have hurl := @writes_ifAny EnvName "url_var".toList
    (fun names ↦ keyStrings "url_var".toList (names.map Scalar.text)) Scalar.text recipe.db.urlVar
    (writes_keyStrings (by decide) _)
  have hall := Writes.append (Writes.append (Writes.append (Writes.append (Writes.append (Writes.append
    (writes_section_one hname) (writes_writeGaps h "db.migrations_dir".toList)) hkind) htool)
    hdirectory) hurl) (writes_ports recipe)
  rw [saidBy, entries_present]
  simpa only [db, dbFields, List.flatMap_cons, List.flatMap_nil, List.append_nil, List.nil_append,
    List.cons_append, List.append_assoc] using hall

theorem writes_services (recipe : Recipe) {gaps : List Gap} (h : ∀ gap ∈ gaps, gap.Safe) :
    Writes (services recipe gaps) (saidBy ⟨["services".toList], listRows (serviceLists recipe)⟩) :=
  Writes.append (Writes.append (Writes.append (writes_section_one (by decide)) (writes_writeGaps h _))
    (writes_keyStrings (by decide) _)) (writes_keyStrings (by decide) _)

theorem writes_env (recipe : Recipe) {gaps : List Gap} (h : ∀ gap ∈ gaps, gap.Safe) :
    Writes (env recipe gaps) (saidBy ⟨["env".toList], listRows (envLists recipe)⟩) :=
  Writes.append (Writes.append (Writes.append (Writes.append (writes_section_one (by decide))
    (writes_writeGaps h _)) (writes_keyStrings (by decide) _)) (writes_keyStrings (by decide) _))
    (writes_keyStrings (by decide) _)

theorem writes_base (recipe : Recipe) :
    Writes (base recipe) (saidBy ⟨["base".toList], listRows (baseLists recipe)⟩) :=
  Writes.append (Writes.append (Writes.append (Writes.append (writes_section_one (by decide))
    (writes_remark (commentable_literal (by decide +kernel)))) (writes_keyStrings (by decide) _)) (writes_remark (commentable_literal (by decide +kernel))))
    (writes_keyStrings (by decide) _)

theorem remarks_commentable (recipe : Recipe) : ∀ name ∈ recipe.hooks.table.map Prod.fst,
    Commentable (' ' :: name ++ " = \"\"".toList) := by
  have hnames : ∀ name ∈ ["pre_new".toList, "post_new".toList, "pre_merge".toList, "post_merge".toList,
      "pre_reclaim".toList, "post_reclaim".toList], Commentable (' ' :: name ++ " = \"\"".toList) := by
    decide +kernel
  exact hnames

theorem writes_policy (recipe : Recipe) :
    Writes (policy recipe) (saidBy ⟨["hooks".toList], present (hookFields recipe)⟩ ++
      saidBy ⟨["sync".toList], present (syncFields recipe)⟩ ++
      saidBy ⟨["reclaim".toList], present (reclaimFields recipe)⟩ ++
      saidBy ⟨["lock".toList], present (lockFields recipe)⟩) := by
  have hrun : Commentable " Run around a lifecycle operation, with the NODAL_* variables set and".toList :=
    commentable_literal (by decide +kernel)
  have hfilled : Commentable " \x7bbranch\x7d, \x7brepo_root\x7d, \x7bunit_path\x7d, \x7bhash_port\x7d and \x7bsanitize\x7d filled in.".toList := commentable_literal (by decide +kernel)
  have hhooks := writes_table fun name hname ↦ writes_remark (remarks_commentable recipe name hname)
  have hsync := @writes_elim Bool "auto_irreversible".toList " auto_irreversible = false".toList
    (keyBool "auto_irreversible".toList) .boolean recipe.sync.autoIrreversible
    (commentable_literal (by decide +kernel)) (writes_keyBool (by decide))
  have hdays := @writes_elim (Fin (2 ^ 32)) "trash_retention".toList
    (" trash_retention = ".toList ++ decimal DEFAULT_TRASH_RETENTION_DAYS)
    (fun days ↦ keyNumber "trash_retention".toList days) (fun days ↦ .integer days)
    recipe.reclaim.trashRetention (by decide)
    fun days ↦ writes_keyNumber (isKey_bare (by decide) (by decide)) (by omega)
  have hhours := @writes_elim (Fin (2 ^ 32)) "idle_hours".toList
    (" idle_hours = ".toList ++ decimal DEFAULT_IDLE_HOURS)
    (fun hours ↦ keyNumber "idle_hours".toList hours) (fun hours ↦ .integer hours)
    recipe.lock.idleHours (by decide)
    fun hours ↦ writes_keyNumber (isKey_bare (by decide) (by decide)) (by omega)
  have hall := Writes.append (Writes.append (Writes.append (Writes.append (Writes.append (Writes.append
    (Writes.append (Writes.append (Writes.append (@writes_section_one "hooks".toList (by decide))
    (writes_remark hrun)) (writes_remark hfilled)) hhooks)
    (@writes_section_one "sync".toList (by decide))) hsync)
    (@writes_section_one "reclaim".toList (by decide))) hdays)
    (@writes_section_one "lock".toList (by decide))) hhours
  simp only [saidBy, entries_present]
  simpa only [policy, hookFields, syncFields, reclaimFields, lockFields, List.flatMap_cons,
    List.flatMap_nil, List.append_nil, List.nil_append, List.cons_append, List.append_assoc] using hall

/-- The file says the recipe's document. Assumes: the texts of the gaps can stand in comments. -/
theorem writes_render (recipe : Recipe) {gaps : List Gap} (h : ∀ gap ∈ gaps, gap.Safe) :
    Writes (render recipe gaps) (said (document recipe)) := by
  have hall := Writes.append (Writes.append (Writes.append (Writes.append (Writes.append (Writes.append
    (Writes.append (Writes.append writes_HEADER (writes_topLevel recipe)) (writes_toolchain recipe h))
    (writes_commands recipe)) (writes_db recipe h)) (writes_services recipe h)) (writes_env recipe h))
    (writes_base recipe)) (writes_policy recipe)
  have hsaid : said (document recipe) = (Table.mk [] (present (topFields recipe.stated))).entries ++
      (sections recipe).flatMap saidBy := rfl
  rw [hsaid]
  simpa only [render, sections, List.flatMap_append, List.flatMap_cons, List.flatMap_nil,
    List.append_nil, List.nil_append, List.append_assoc] using hall

end Nodal.Recipes
