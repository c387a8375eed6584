import Nodal.Env.Activation
import Nodal.Git.Repository

/-!
# The files of an activated home, and entering it

`env/files.rs` and `env/mod.rs`: the dotenv file with the identity and the generated values, the
constant `.envrc`, and the manifest with names and origins. Entering a home reads the first back and
resolves, from the secrets of whoever enters, the names the manifest says a person supplies.

Nothing that is written depends on a value a person supplied, and whoever enters has their own value of
each name that a person is to supply (`secrets_stay`). A name that is Nodal's identity, or that has a
generated value or a stand-in, is not a person's to supply.
-/

set_option autoImplicit false

namespace Nodal.Env

open Foundation

/-! ### The dotenv file -/

/-- What `.nodal/env` says about itself. -/
def HEADER : List Text :=
  [("# Written by nodal. Edits are lost the next time the unit is " ++ "activated.").toList,
    ("# It holds no secret: your own values go in " ++
      "~/.config/nodal/secrets.env and are resolved when you enter.").toList]

/-- Escape a value for the double-quoted form of a dotenv file. -/
def escapeDotenv : Text → Text
  | [] => []
  | c :: rest =>
    if c = '\\' ∨ c = '"' ∨ c = '$' ∨ c = Char.ofNat 96 then '\\' :: c :: escapeDotenv rest
    else if c = '\n' then '\\' :: 'n' :: escapeDotenv rest
    else c :: escapeDotenv rest

/-- Whether a variable's value came from the secrets of whoever ran the command. -/
def isAPersonsOwn (var : EnvVar) : Bool := var.origin = .machine

/-- One assignment of the dotenv file. -/
def assignment (var : EnvVar) : Text :=
  var.name.text ++ '=' :: '"' :: (escapeDotenv var.value ++ ['"'])

/-- What `.nodal/env` holds: the identity and the generated values, and nothing a person supplied. -/
def dotenv (activation : Activation) : Text :=
  (HEADER ++ (activation.vars.filter (!isAPersonsOwn ·)).map assignment).flatMap (· ++ ['\n'])

/-- Undo the escaping, from the character after a backslash on. -/
def unescapeFrom : Text → Text
  | [] => []
  | ['\\'] => ['\\']
  | '\\' :: c :: rest => (if c = 'n' then '\n' else c) :: unescapeFrom rest
  | c :: rest => c :: unescapeFrom rest

/-- Undo the escaping of one double-quoted value. -/
def unescape (value : Text) : Text :=
  unescapeFrom ((Text.trim value).dropWhile (· = '"') |>.rdropWhile (· = '"'))

/-- One assignment of a dotenv file. -/
def parseLine (line : Text) : Option (EnvName × Text) := do
  let (name, value) ← Text.splitOnce '=' line
  let name ← EnvName.parse (Text.trim name)
  return (name, unescape value)

/-- The assignments of a dotenv file. -/
def parseDotenv (text : Text) : List (EnvName × Text) :=
  ((Text.lines text).filter fun line ↦ (Text.trimStart line).head? ≠ some '#').filterMap parseLine

/-! ### The manifest -/

/-- What a home says of itself: names, and no value. -/
structure Manifest where
  unit : Text
  environment : Text
  slug : Text
  project : Text
  host : Text
  home : Text
  writtenAt : ℕ
  binaryVersion : Text
  env : Table EnvName Origin
  missing : List Missing
  deriving DecidableEq

/-- The names and origins. -/
def Activation.origins (activation : Activation) : Table EnvName Origin :=
  activation.vars.foldl (fun origins var ↦ origins.set var.name var.origin) ∅

/-- When, and by which Nodal, a manifest is written. -/
structure Writing where
  now : ℕ
  binaryVersion : Text

def Activation.manifest (activation : Activation) (subject : Subject) (writing : Writing) : Manifest where
  unit := subject.unit
  environment := subject.environment
  slug := subject.slug
  project := subject.project
  host := subject.host
  home := subject.home
  writtenAt := writing.now
  binaryVersion := writing.binaryVersion
  env := activation.origins
  missing := activation.missing

/-- How a manifest stands in its file. -/
structure Toml where
  render : Manifest → Option Text
  parse : Text → Option Manifest

/-! ### The files -/

def ENV : String := ".nodal/env"

def ENVRC : String := ".envrc"

def MANIFEST : String := ".nodal/manifest.toml"

/-- The paths a home's activation writes. -/
def PATHS : List String := [ENV, ENVRC, MANIFEST]

/-- The whole of `.envrc`. -/
def ENVRC_CONTENTS : Text :=
  ("dotenv .nodal/env" ++ "\n" ++ "eval \"$(nodal env --export)\"" ++ "\n").toList

/-- What a checkout tracks, of the files Nodal writes, or why Git could not be asked. -/
inductive Tracks
  | known (paths : List String)
  | unknown (cause : String)

namespace Tracks

def mayWrite (tracks : Tracks) (path : String) : Bool :=
  match tracks with
  | known paths => path ∉ paths
  | unknown _ => false

/-- The note about a file that was left alone. -/
def leftAlone (tracks : Tracks) (path : String) : String :=
  match tracks with
  | unknown cause => path ++ ": " ++ cause ++ ", so nodal did not write in it"
  | known _ => "the project tracks " ++ path ++ ", so nodal did not write in it"

end Tracks

/-- The files of a home, by their paths inside it. -/
abbrev Files := String → Option Text

/-- What is written at each of the paths. -/
def contents (toml : Toml) (activation : Activation) (manifest : Manifest) (path : String) :
    Except Error Text :=
  if path = ENV then .ok (dotenv activation)
  else if path = ENVRC then .ok ENVRC_CONTENTS
  else match toml.render manifest with
    | some text => .ok text
    | none => .error .manifestEncode

/-- Write each activation file that is not tracked, and say which were left alone. -/
def writeEach (toml : Toml) (tracks : Tracks) (fails : String → Bool) (activation : Activation)
    (manifest : Manifest) : List String → Files → Except Error (Files × List String)
  | [], files => .ok (files, [])
  | path :: rest, files =>
    if tracks.mayWrite path = false then do
      let (files, notes) ← writeEach toml tracks fails activation manifest rest files
      return (files, tracks.leftAlone path :: notes)
    else do
      let text ← contents toml activation manifest path
      if fails path then throw (.io path)
      writeEach toml tracks fails activation manifest rest (Function.update files path (some text))

/-- The directory of the activation files. -/
def DIR : String := ".nodal"

/-- Write the activation files, where the file operations that fail are the outside's. -/
def write (toml : Toml) (tracks : Tracks) (fails : String → Bool) (activation : Activation)
    (manifest : Manifest) (files : Files) : Except Error (Files × List String) := do
  if fails DIR then throw (.io DIR)
  writeEach toml tracks fails activation manifest PATHS files

/-- Activate a home under somebody's secrets. -/
def activate (toml : Toml) (tracks : Tracks) (fails : String → Bool) (subject : Subject)
    (recipe : Recipe) (produced : EnvName → Option Text) (standIns : Option StandIns)
    (writing : Writing) (secrets : EnvName → Option Text) (files : Files) :
    Except Error (Files × List String) := do
  let activation ← resolve subject recipe produced standIns [machineSecrets secrets]
  write toml tracks fails activation (activation.manifest subject writing) files

/-! ### Entering -/

/-- Keep the first of each run of equal names. -/
def dedupAdjacent : List EnvName → List EnvName
  | [] => []
  | [name] => [name]
  | name :: next :: rest =>
    if name = next then dedupAdjacent (next :: rest) else name :: dedupAdjacent (next :: rest)

/-- The names a person's own secrets are asked for. -/
def wanted (manifest : Manifest) : List EnvName :=
  let held := (manifest.env.rows.filter (·.2 = .machine)).map Prod.fst
  let unanswered := (manifest.missing.filter fun missing ↦
    missing.want = .secret ∨ missing.want = .requiredLocal).map Missing.name
  dedupAdjacent (held ++ unanswered)

/-- Ask a person's secrets for each name that has no value yet. -/
def asked (secrets : EnvName → Option Text) :
    List EnvName → List (EnvName × Text) → List (EnvName × Text)
  | [], pairs => pairs
  | name :: rest, pairs =>
    if pairs.any (·.1 = name) then asked secrets rest pairs
    else match secrets name with
      | some value => asked secrets rest (pairs ++ [(name, value)])
      | none => asked secrets rest pairs

/-- Every variable a shell that enters a home carries, for whoever enters it. -/
def entering (toml : Toml) (files : Files) (secrets : EnvName → Option Text) :
    Except Error (List (EnvName × Text)) :=
  match files ENV with
  | none => .error (.io ENV)
  | some text =>
    match (files MANIFEST).bind toml.parse with
    | none => .ok (parseDotenv text)
    | some manifest => .ok (asked secrets (wanted manifest) (parseDotenv text))

/-- The names a person supplies: declared as local or secret, and neither Nodal's own nor one that has
a generated value or a stand-in. -/
def Supplied (recipe : Recipe) (produced : EnvName → Option Text) (standIns : Option StandIns)
    (name : EnvName) : Prop :=
  name ∈ recipe.requiredLocal ++ recipe.secrets ∧ name ∉ ALL ∧
    (name ∈ recipe.generated → produced name = none ∧ standIn standIns name = .ok none)

variable {toml : Toml} {tracks : Tracks} {fails : String → Bool} {subject : Subject} {recipe : Recipe}
  {produced : EnvName → Option Text} {standIns : Option StandIns} {writing : Writing}
  {secrets : EnvName → Option Text} {files files' : Files} {notes : List String}
  {activation activation' : Activation} {manifest : Manifest} {name : EnvName} {value : Text}

/-! ### What an activation holds -/

/-- The secrets of a person answer with their own tier. -/
theorem lookupIn_machine :
    lookupIn [machineSecrets secrets] name = .ok ((secrets name).map (Origin.machine, ·)) := by
  cases h : secrets name <;> simp [lookupIn, machineSecrets, h, bind, Except.bind, pure, Except.pure]

/-- What a person's secrets give the names asked of them. -/
def supplied (secrets : EnvName → Option Text) (want : Want) (names : List EnvName) : Activation where
  vars := names.filterMap fun name ↦ (secrets name).map (⟨name, .machine, ·⟩)
  missing := (names.filter fun name ↦ (secrets name).isNone).map (⟨·, want⟩)

theorem fromSources_machine (want : Want) (names : List EnvName) :
    fromSources [machineSecrets secrets] want names = .ok (supplied secrets want names) := by
  induction names with
  | nil => rfl
  | cons first rest ih =>
    unfold fromSources
    rw [lookupIn_machine, ih]
    cases h : secrets first <;>
      simp [supplied, h, bind, Except.bind, pure, Except.pure]

/-- The variables of an activation before a name is kept once. -/
def pooled (subject : Subject) (recipe : Recipe) (generated : Activation)
    (secrets : EnvName → Option Text) : List EnvVar :=
  (identity subject).map (fun (name, value) ↦ ⟨name, .identity, value⟩) ++ generated.vars ++
    (supplied secrets .requiredLocal recipe.requiredLocal).vars ++
    (supplied secrets .secret recipe.secrets).vars

/-- What an activation comes to, from what its services were given. -/
def assembled (subject : Subject) (recipe : Recipe) (generated : Activation)
    (secrets : EnvName → Option Text) : Activation where
  vars := dedupe [] (pooled subject recipe generated secrets)
  missing := generated.missing ++ (supplied secrets .requiredLocal recipe.requiredLocal).missing ++
    (supplied secrets .secret recipe.secrets).missing

theorem resolve_eq : resolve subject recipe produced standIns [machineSecrets secrets] =
    (fromProduced produced standIns recipe.generated).map (assembled subject recipe · secrets) := by
  unfold resolve
  rw [fromSources_machine, fromSources_machine]
  cases fromProduced produced standIns recipe.generated <;> rfl

/-- An activation that was written was assembled. -/
theorem activate_eq_ok
    (h : activate toml tracks fails subject recipe produced standIns writing secrets files =
      .ok (files', notes)) :
    ∃ generated, fromProduced produced standIns recipe.generated = .ok generated ∧
      write toml tracks fails (assembled subject recipe generated secrets)
        ((assembled subject recipe generated secrets).manifest subject writing) files =
          .ok (files', notes) := by
  rw [activate, resolve_eq] at h
  cases hgenerated : fromProduced produced standIns recipe.generated with
  | error error =>
    rw [hgenerated] at h
    cases h
  | ok generated =>
    rw [hgenerated] at h
    exact ⟨generated, rfl, h⟩

/-- A generated name has a value of the unit's own or a stand-in, never a person's. -/
theorem fromProducedOne_spec {one : Activation} (h : fromProducedOne produced standIns name = .ok one) :
    ∀ var ∈ one.vars, var.origin ≠ .machine ∧ var.name = name ∧
      ¬(produced name = none ∧ standIn standIns name = .ok none) := by
  unfold fromProducedOne at h
  split at h
  · next value hproduced =>
    cases h
    simp [hproduced]
  · obtain ⟨answer, hanswer, h⟩ := Git.bind_eq_ok h
    split at h
    · cases h
      simp [hanswer]
    · cases h
      simp

theorem fromProduced_spec {names : List EnvName} {generated : Activation}
    (h : fromProduced produced standIns names = .ok generated) :
    ∀ var ∈ generated.vars, var.origin ≠ .machine ∧ var.name ∈ names ∧
      ¬(produced var.name = none ∧ standIn standIns var.name = .ok none) := by
  induction names generalizing generated with
  | nil =>
    cases h
    simp
  | cons first rest ih =>
    rw [fromProduced] at h
    obtain ⟨one, hone, h⟩ := Git.bind_eq_ok h
    obtain ⟨others, hothers, h⟩ := Git.bind_eq_ok h
    cases h
    intro var hvar
    rcases List.mem_append.mp hvar with hvar | hvar
    · obtain ⟨horigin, rfl, hnot⟩ := fromProducedOne_spec hone var hvar
      exact ⟨horigin, List.mem_cons_self, hnot⟩
    · obtain ⟨horigin, hname, hnot⟩ := ih hothers var hvar
      exact ⟨horigin, List.mem_cons_of_mem _ hname, hnot⟩

/-! ### What is written -/

/-- A variable without the value a person supplied. -/
def blank (var : EnvVar) : EnvVar := if var.origin = .machine then { var with value := [] } else var

@[simp] theorem blank_name (var : EnvVar) : (blank var).name = var.name := by
  unfold blank
  split <;> rfl

@[simp] theorem blank_origin (var : EnvVar) : (blank var).origin = var.origin := by
  unfold blank
  split <;> rfl

theorem blank_eq_self {var : EnvVar} (h : isAPersonsOwn var = false) : blank var = var := by
  simp_all [blank, isAPersonsOwn]

/-- Keeping a name once looks at no value. -/
theorem map_blank_dedupe (seen : List EnvName) (vars : List EnvVar) :
    (dedupe seen vars).map blank = dedupe seen (vars.map blank) := by
  fun_induction dedupe seen vars with
  | case1 => rfl
  | case2 seen var rest hseen ih => simp [dedupe, hseen, ih]
  | case3 seen var rest hseen ih => simp [dedupe, hseen, ih]

/-- The same but for what a person supplied. -/
def Alike (activation activation' : Activation) : Prop :=
  activation.vars.map blank = activation'.vars.map blank ∧ activation.missing = activation'.missing

theorem dotenv_congr (h : Alike activation activation') : dotenv activation = dotenv activation' := by
  have hblank (vars : List EnvVar) : (vars.filter (!isAPersonsOwn ·)).map assignment =
      ((vars.map blank).filter (!isAPersonsOwn ·)).map assignment := by
    induction vars with
    | nil => rfl
    | cons var rest ih =>
      have horigin : isAPersonsOwn (blank var) = isAPersonsOwn var := by simp [isAPersonsOwn]
      cases hown : isAPersonsOwn var with
      | true => simp [horigin, hown, ih]
      | false => simp [hown, ih, blank_eq_self hown]
  unfold dotenv
  rw [hblank, h.1, ← hblank]

theorem origins_congr (h : Alike activation activation') :
    activation.origins = activation'.origins := by
  have hblank (vars : List EnvVar) (origins : Table EnvName Origin) :
      vars.foldl (fun origins var ↦ origins.set var.name var.origin) origins =
        (vars.map blank).foldl (fun origins var ↦ origins.set var.name var.origin) origins := by
    simp [List.foldl_map]
  unfold Activation.origins
  rw [hblank, h.1, ← hblank]

theorem manifest_congr (h : Alike activation activation') :
    activation.manifest subject writing = activation'.manifest subject writing := by
  simp only [Activation.manifest, origins_congr h, h.2]

theorem write_congr (h : Alike activation activation') :
    write toml tracks fails activation manifest files =
      write toml tracks fails activation' manifest files := by
  have hcontents (path : String) :
      contents toml activation manifest path = contents toml activation' manifest path := by
    unfold contents
    rw [dotenv_congr h]
  have heach (paths : List String) (files : Files) :
      writeEach toml tracks fails activation manifest paths files =
        writeEach toml tracks fails activation' manifest paths files := by
    induction paths generalizing files with
    | nil => rfl
    | cons path rest ih => simp only [writeEach, hcontents, ih]
  unfold write
  rw [heach]

/-- Two people who answer the same names activate the same but for their values. -/
theorem alike_assembled {reader : EnvName → Option Text} {generated : Activation}
    (hsame : ∀ name, (secrets name).isSome = (reader name).isSome) :
    Alike (assembled subject recipe generated secrets) (assembled subject recipe generated reader) := by
  have hnone (name : EnvName) : (secrets name).isNone = (reader name).isNone := by
    rw [← Option.not_isSome, ← Option.not_isSome, hsame]
  have hmissing (want : Want) (names : List EnvName) :
      (supplied secrets want names).missing = (supplied reader want names).missing := by
    simp [supplied, hnone]
  have hvars (want : Want) (names : List EnvName) :
      (supplied secrets want names).vars.map blank = (supplied reader want names).vars.map blank := by
    simp only [supplied, List.map_filterMap]
    congr 1
    funext name
    have hname := hsame name
    cases hsecret : secrets name <;> cases hreader : reader name <;> simp_all [blank]
  constructor
  · simp only [assembled, map_blank_dedupe, pooled, List.map_append, hvars]
  · simp only [assembled, hmissing]

/-- Nothing that is written depends on a value a person supplied. -/
theorem activate_congr {reader : EnvName → Option Text}
    (hsame : ∀ name, (secrets name).isSome = (reader name).isSome) :
    activate toml tracks fails subject recipe produced standIns writing secrets files =
      activate toml tracks fails subject recipe produced standIns writing reader files := by
  unfold activate
  rw [resolve_eq, resolve_eq]
  cases fromProduced produced standIns recipe.generated with
  | error error => rfl
  | ok generated =>
    exact (write_congr (alike_assembled hsame)).trans (by rw [manifest_congr (alike_assembled hsame)]; rfl)

/-! ### What is read back -/

/-- The characters of a name. -/
theorem EnvName.mem_text {c : Char} (name : EnvName) (hc : c ∈ name.text) :
    c.isUpper ∨ c.isDigit ∨ c = '_' := by
  have haccepted := name.accepted.1
  generalize name.text = text at hc haccepted
  cases text with
  | nil => cases hc
  | cons first rest =>
    simp only [isEnvName, Bool.and_eq_true, Bool.or_eq_true, decide_eq_true_eq, List.all_eq_true]
      at haccepted
    rcases List.mem_cons.mp hc with rfl | hc
    · tauto
    · have := haccepted.2 c hc
      tauto

/-- A name has no white space and none of the characters a dotenv file gives a meaning. -/
theorem EnvName.plain {c : Char} (name : EnvName) (hc : c ∈ name.text) :
    Text.isWhitespace c = false ∧ c ≠ '=' ∧ c ≠ '#' ∧ c ≠ '\n' := by
  have hrange : (65 ≤ c.toNat ∧ c.toNat ≤ 90) ∨ (48 ≤ c.toNat ∧ c.toNat ≤ 57) ∨ c.toNat = 95 := by
    rcases name.mem_text hc with h | h | rfl
    · exact .inl (Text.isUpper_iff.mp h)
    · exact .inr (.inl (by simpa [Char.isDigit, Char.le_def, UInt32.le_iff_toNat_le] using h))
    · exact .inr (.inr rfl)
  refine ⟨?_, ?_, ?_, ?_⟩
  · simp only [Text.isWhitespace, decide_eq_false_iff_not]
    omega
  all_goals
    rintro rfl
    revert hrange
    decide

theorem escapeDotenv_newline (text : Text) : '\n' ∉ escapeDotenv text := by
  fun_induction escapeDotenv with
  | case1 => simp
  | case2 c rest hc ih =>
    have hne : c ≠ '\n' := by rcases hc with rfl | rfl | rfl | rfl <;> decide
    simp [ih, hne.symm]
  | case3 rest _ ih => simp [ih]
  | case4 c rest _ hne ih => simp [ih, Ne.symm hne]

theorem assignment_newline (var : EnvVar) : '\n' ∉ assignment var := by
  have hname : '\n' ∉ var.name.text := fun h ↦ (var.name.plain h).2.2.2 rfl
  simp [assignment, hname, escapeDotenv_newline]

/-- An assignment is read back as its name and its value. -/
theorem parseLine_assignment (var : EnvVar) : parseLine (assignment var) =
    some (var.name, unescape ('"' :: (escapeDotenv var.value ++ ['"']))) := by
  have hequals : '=' ∉ var.name.text := fun h ↦ (var.name.plain h).2.1 rfl
  have htrim : Text.trim var.name.text = var.name.text :=
    Text.trim_eq_self fun c hc ↦ (var.name.plain hc).1
  simp [parseLine, assignment, Text.splitOnce_append hequals, htrim, EnvName.parse_text]

/-- What a dotenv file holds is read back, name by name, and its header is not. -/
theorem parseDotenv_dotenv (activation : Activation) : parseDotenv (dotenv activation) =
    (activation.vars.filter (!isAPersonsOwn ·)).map fun var ↦
      (var.name, unescape ('"' :: (escapeDotenv var.value ++ ['"']))) := by
  have hheader : ∀ line ∈ HEADER, '\n' ∉ line := by decide
  have hlines : Text.lines (dotenv activation) =
      HEADER ++ (activation.vars.filter (!isAPersonsOwn ·)).map assignment := by
    unfold dotenv
    rw [Text.lines_flatMap, List.map_append, List.map_map]
    · congr 1
      refine List.map_congr_left fun var _ ↦ Text.chomp_eq_self ?_
      simp [assignment, List.getLast?_cons]
    · intro line hline
      rcases List.mem_append.mp hline with hline | hline
      · exact hheader line hline
      · obtain ⟨var, -, rfl⟩ := List.mem_map.mp hline
        exact assignment_newline var
  have hkept (var : EnvVar) : (Text.trimStart (assignment var)).head? ≠ some '#' := by
    obtain ⟨c, rest, htext⟩ : ∃ c rest, var.name.text = c :: rest := by
      cases htext : var.name.text with
      | nil => simpa [htext, isEnvName] using var.name.accepted.1
      | cons c rest => exact ⟨c, rest, rfl⟩
    obtain ⟨hspace, -, hhash, -⟩ := var.name.plain (htext ▸ List.mem_cons_self (a := c))
    simp [assignment, htext, Text.trimStart, hspace, hhash]
  have hcomments : HEADER.filter (fun line ↦ (Text.trimStart line).head? ≠ some '#') = [] := by decide
  rw [parseDotenv, hlines, List.filter_append, hcomments, List.nil_append, List.filter_eq_self.mpr,
    List.filterMap_map]
  · simp only [Function.comp_def, parseLine_assignment, List.filterMap_eq_map']
  · intro line hline
    obtain ⟨var, -, rfl⟩ := List.mem_map.mp hline
    exact decide_eq_true (hkept var)

/-! ### The value that is read back -/

theorem escapeDotenv_append (first second : Text) :
    escapeDotenv (first ++ second) = escapeDotenv first ++ escapeDotenv second := by
  fun_induction escapeDotenv first with
  | case1 => rfl
  | case2 c rest hc ih => rw [List.cons_append, escapeDotenv, if_pos hc, ih, List.cons_append,
      List.cons_append]
  | case3 rest hc ih =>
    rw [List.cons_append, escapeDotenv, if_neg hc, if_pos rfl, ih, List.cons_append,
      List.cons_append]
  | case4 c rest hc hne ih =>
    rw [List.cons_append, escapeDotenv, if_neg hc, if_neg hne, ih, List.cons_append]

/-- Undoing the escaping gives the value back, whatever comes after it. -/
theorem unescapeFrom_escapeDotenv (value rest : Text) :
    unescapeFrom (escapeDotenv value ++ rest) = value ++ unescapeFrom rest := by
  fun_induction escapeDotenv value with
  | case1 => rfl
  | case2 c more hc ih =>
    have hletter : c ≠ 'n' := by rcases hc with rfl | rfl | rfl | rfl <;> decide
    simp [unescapeFrom, hletter, ih]
  | case3 more hc ih => simp [unescapeFrom, ih]
  | case4 c more hc hne ih =>
    have hslash : c ≠ '\\' := fun heq ↦ hc (Or.inl heq)
    rw [List.cons_append, unescapeFrom.eq_def]
    simp [hslash, ih]

/-- What ends an escaped value ends in a double quote exactly where the value does. -/
theorem rdropWhile_escapeDotenv (value : Text) :
    (escapeDotenv value).rdropWhile (· = '"') =
      if value.getLast? = some '"' then escapeDotenv value.dropLast ++ ['\\']
      else escapeDotenv value := by
  rcases List.eq_nil_or_concat value with rfl | ⟨value, c, rfl⟩
  · rfl
  · rw [List.concat_eq_append, List.getLast?_concat, List.dropLast_concat, escapeDotenv_append]
    split_ifs with hquote
    · obtain rfl : c = '"' := Option.some.inj hquote
      have hlast : escapeDotenv value ++ escapeDotenv ['"'] =
          (escapeDotenv value ++ ['\\']) ++ ['"'] := by simp [escapeDotenv]
      rw [hlast, List.rdropWhile_concat_pos _ _ _ (by simp), List.rdropWhile_concat_neg _ _ _ (by simp)]
    · have hne : c ≠ '"' := fun heq ↦ hquote (by rw [heq])
      obtain ⟨before, last, hescaped, hlast⟩ : ∃ before last,
          escapeDotenv [c] = before ++ [last] ∧ last ≠ '"' := by
        rw [escapeDotenv]
        split_ifs with hspecial hnewline
        · exact ⟨['\\'], c, rfl, hne⟩
        · exact ⟨['\\'], 'n', rfl, by decide⟩
        · exact ⟨[], c, rfl, hne⟩
      rw [hescaped, ← List.append_assoc, List.rdropWhile_concat_neg _ _ _ (by simpa using hlast)]

/-- The value the file gives back. The quotes the value ends with are taken for the one that closes
it, so the backslash before the last of them stands alone. -/
theorem unescape_quoted (value : Text) :
    unescape ('"' :: (escapeDotenv value ++ ['"'])) =
      if value.getLast? = some '"' then value.dropLast ++ ['\\'] else value := by
  have hspace : Text.isWhitespace '"' = false := by decide
  have htrim : Text.trim ('"' :: (escapeDotenv value ++ ['"'])) =
      '"' :: (escapeDotenv value ++ ['"']) := by
    have hstart : Text.trimStart ('"' :: (escapeDotenv value ++ ['"'])) =
        '"' :: (escapeDotenv value ++ ['"']) := by simp [Text.trimStart, hspace]
    rw [Text.trim, hstart, ← List.cons_append,
      List.rdropWhile_concat_neg _ _ _ (by simp [hspace])]
  have hopening : ('"' :: (escapeDotenv value ++ ['"'])).dropWhile (· = '"') =
      if value = [] then [] else escapeDotenv value ++ ['"'] := by
    cases value with
    | nil => rfl
    | cons c value =>
      rw [if_neg (List.cons_ne_nil _ _), escapeDotenv]
      split_ifs with hspecial hnewline
      · simp
      · simp
      · have hne : c ≠ '"' := fun heq ↦ hspecial (Or.inr (Or.inl heq))
        simp [hne]
  rw [unescape, htrim, hopening]
  split_ifs with hnil hnone hquote
  · rw [hnil] at hnone
    cases hnone
  · rw [hnil]
    rfl
  · rw [List.rdropWhile_concat_pos _ _ _ (by simp), rdropWhile_escapeDotenv, if_pos hquote,
      unescapeFrom_escapeDotenv]
    rfl
  · rw [List.rdropWhile_concat_pos _ _ _ (by simp), rdropWhile_escapeDotenv, if_neg hquote,
      ← List.append_nil (escapeDotenv value), unescapeFrom_escapeDotenv, unescapeFrom,
      List.append_nil]

/-- A value is given back exactly where it does not end in a double quote. -/
theorem unescape_quoted_iff {value : Text} :
    unescape ('"' :: (escapeDotenv value ++ ['"'])) = value ↔ value.getLast? ≠ some '"' := by
  rw [unescape_quoted]
  split_ifs with hquote
  · refine iff_of_false ?_ (not_not_intro hquote)
    intro hsame
    rw [← hsame, List.getLast?_concat] at hquote
    exact absurd hquote (by decide)
  · exact iff_of_true rfl hquote

/-! ### The names a person supplies -/

/-- Whatever is pooled of a name that a person supplies is a person's. -/
theorem origin_pooled {generated : Activation} {var : EnvVar}
    (hgenerated : fromProduced produced standIns recipe.generated = .ok generated)
    (hname : Supplied recipe produced standIns var.name)
    (hvar : var ∈ pooled subject recipe generated secrets) : var.origin = .machine := by
  obtain ⟨-, hidentity, hnot⟩ := hname
  have hsupplied (want : Want) (names : List EnvName)
      (hvar : var ∈ (supplied secrets want names).vars) : var.origin = .machine := by
    obtain ⟨name, -, hvalue⟩ := List.mem_filterMap.mp hvar
    obtain ⟨value, -, rfl⟩ := Option.map_eq_some_iff.mp hvalue
    rfl
  simp only [pooled, List.append_assoc, List.mem_append] at hvar
  rcases hvar with hvar | hvar | hvar | hvar
  · obtain ⟨⟨name, value⟩, hmem, rfl⟩ := List.mem_map.mp hvar
    refine absurd ?_ hidentity
    exact List.mem_map_of_mem (f := Prod.fst) hmem
  · obtain ⟨-, hmem, hsome⟩ := fromProduced_spec hgenerated var hvar
    exact absurd (hnot hmem) hsome
  · exact hsupplied _ _ hvar
  · exact hsupplied _ _ hvar

/-- A name that only a person supplies is not in the file. -/
theorem not_mem_parseDotenv {generated : Activation}
    (hgenerated : fromProduced produced standIns recipe.generated = .ok generated)
    (hname : Supplied recipe produced standIns name) :
    name ∉ (parseDotenv (dotenv (assembled subject recipe generated secrets))).map Prod.fst := by
  rw [parseDotenv_dotenv, List.map_map]
  intro hmem
  obtain ⟨var, hvar, rfl⟩ := List.mem_map.mp hmem
  obtain ⟨hkept, hown⟩ := List.mem_filter.mp hvar
  have horigin := origin_pooled hgenerated hname (mem_of_mem_dedupe hkept).1
  simp [isAPersonsOwn, horigin] at hown

/-- The origin a manifest records of a name whose variables all have it. -/
theorem get?_origins {origin : Origin} {vars : List EnvVar}
    (hall : ∀ var ∈ vars, var.name = name → var.origin = origin) (origins : Table EnvName Origin)
    (hsome : (∃ var ∈ vars, var.name = name) ∨ origins.get? name = some origin) :
    (vars.foldl (fun origins var ↦ origins.set var.name var.origin) origins).get? name =
      some origin := by
  induction vars generalizing origins with
  | nil => simpa using hsome
  | cons first rest ih =>
    obtain ⟨hfirst, hrest⟩ := List.forall_mem_cons.mp hall
    refine ih hrest _ ?_
    by_cases hname : first.name = name
    · exact .inr (by simp only [hname, Table.get?_set_self, hfirst hname])
    · rcases hsome with ⟨var, hvar, hvarName⟩ | hheld
      · rcases List.mem_cons.mp hvar with rfl | hvar
        · exact absurd hvarName hname
        · exact .inl ⟨var, hvar, hvarName⟩
      · exact .inr (by simp only [Table.get?_set_of_ne (Ne.symm hname), hheld])

theorem mem_dedupAdjacent {names : List EnvName} : name ∈ dedupAdjacent names ↔ name ∈ names := by
  fun_induction dedupAdjacent with
  | case1 => rfl
  | case2 => rfl
  | case3 next rest ih => simpa using ih
  | case4 first next rest _ ih => simp only [List.mem_cons, ih]

/-- A name that is asked of a person's secrets is answered by them or missing. -/
theorem supplied_answers (want : Want) {names : List EnvName} (hmem : name ∈ names) :
    (∃ var ∈ (supplied secrets want names).vars, var.name = name) ∨
      ⟨name, want⟩ ∈ (supplied secrets want names).missing := by
  cases hvalue : secrets name with
  | some value =>
    refine .inl ⟨⟨name, .machine, value⟩, ?_, rfl⟩
    exact List.mem_filterMap.mpr ⟨name, hmem, by simp [hvalue]⟩
  | none =>
    refine .inr (List.mem_map.mpr ⟨name, ?_, rfl⟩)
    exact List.mem_filter.mpr ⟨hmem, by simp [hvalue]⟩

/-- The manifest of a home says which names a person supplies, whoever activated it. -/
theorem mem_wanted {generated : Activation}
    (hgenerated : fromProduced produced standIns recipe.generated = .ok generated)
    (hname : Supplied recipe produced standIns name) :
    name ∈ wanted ((assembled subject recipe generated secrets).manifest subject writing) := by
  have hmachine (hsome : ∃ var ∈ pooled subject recipe generated secrets, var.name = name) :
      (name, Origin.machine) ∈ (assembled subject recipe generated secrets).origins.rows := by
    obtain ⟨var, hvar, rfl⟩ := hsome
    refine Table.mem_rows_iff.mpr (get?_origins (fun kept hkept hsame ↦ ?_) ∅
      (.inl (exists_mem_dedupe hvar (by simp))))
    exact origin_pooled hgenerated (hsame ▸ hname) (mem_of_mem_dedupe hkept).1
  rw [wanted, mem_dedupAdjacent, List.mem_append, List.mem_map, List.mem_map]
  rcases List.mem_append.mp hname.1 with hmem | hmem
  · rcases @supplied_answers secrets _ .requiredLocal _ hmem with ⟨var, hvar, hsame⟩ | hmissing
    · refine .inl ⟨(name, .machine), List.mem_filter.mpr ⟨hmachine ⟨var, ?_, hsame⟩, by simp⟩, rfl⟩
      simp [pooled, hvar]
    · refine .inr ⟨⟨name, .requiredLocal⟩, List.mem_filter.mpr ⟨?_, ?_⟩, rfl⟩
      · simp only [Activation.manifest, assembled, List.mem_append]
        exact .inl (.inr hmissing)
      · simp
  · rcases @supplied_answers secrets _ .secret _ hmem with ⟨var, hvar, hsame⟩ | hmissing
    · refine .inl ⟨(name, .machine), List.mem_filter.mpr ⟨hmachine ⟨var, ?_, hsame⟩, by simp⟩, rfl⟩
      simp [pooled, hvar]
    · refine .inr ⟨⟨name, .secret⟩, List.mem_filter.mpr ⟨?_, ?_⟩, rfl⟩
      · simp only [Activation.manifest, assembled, List.mem_append]
        exact .inr hmissing
      · simp

/-! ### Entering under one's own secrets -/

/-- Asking gives each name its value, and changes none that has one. -/
theorem lookup_asked {names : List EnvName} {pairs : List (EnvName × Text)}
    (hvalue : secrets name = some value)
    (h : pairs.lookup name = some value ∨ name ∉ pairs.map Prod.fst ∧ name ∈ names) :
    (asked secrets names pairs).lookup name = some value := by
  have hnone {pairs : List (EnvName × Text)} (hnot : name ∉ pairs.map Prod.fst) :
      pairs.lookup name = none := by
    rw [List.lookup_eq_none_iff]
    intro pair hpair
    rw [bne_iff_ne]
    rintro rfl
    exact hnot (List.mem_map_of_mem hpair)
  induction names generalizing pairs with
  | nil => simpa [asked] using h
  | cons first rest ih =>
    rw [asked]
    split
    · next hheld =>
      refine ih (h.imp_right fun ⟨hnot, hmem⟩ ↦ ⟨hnot, ?_⟩)
      refine (List.mem_cons.mp hmem).resolve_left ?_
      rintro rfl
      obtain ⟨pair, hpair, hsame⟩ := List.any_eq_true.mp hheld
      exact hnot (List.mem_map.mpr ⟨pair, hpair, of_decide_eq_true hsame⟩)
    · split
      · next answer hanswer =>
        refine ih ?_
        rw [List.lookup_append]
        rcases h with hlookup | ⟨hnot, hmem⟩
        · exact .inl (by rw [hlookup, Option.some_or])
        · rcases List.mem_cons.mp hmem with rfl | hrest
          · obtain rfl : answer = value := Option.some.inj (hanswer.symm.trans hvalue)
            exact .inl (by simp [hnone hnot])
          · by_cases hsame : name = first
            · subst hsame
              obtain rfl : answer = value := Option.some.inj (hanswer.symm.trans hvalue)
              exact .inl (by simp [hnone hnot])
            · exact .inr ⟨by simpa [hsame] using hnot, hrest⟩
      · next hanswer =>
        refine ih (h.imp_right fun ⟨hnot, hmem⟩ ↦ ⟨hnot, ?_⟩)
        refine (List.mem_cons.mp hmem).resolve_left ?_
        rintro rfl
        cases hanswer.symm.trans hvalue

/-- What a home has at each of the paths that were written. -/
theorem writeEach_eq_ok {paths : List String}
    (h : writeEach toml tracks fails activation manifest paths files = .ok (files', notes))
    {path : String} : (path ∉ paths → files' path = files path) ∧
      (path ∈ paths → tracks.mayWrite path = true →
        ∃ text, contents toml activation manifest path = .ok text ∧ files' path = some text) := by
  induction paths generalizing files notes with
  | nil =>
    cases h
    simp
  | cons first rest ih =>
    rw [writeEach] at h
    split at h
    · next htracked =>
      obtain ⟨⟨files₁, notes₁⟩, hrest, h⟩ := Git.bind_eq_ok h
      cases h
      refine ⟨fun hnot ↦ (ih hrest).1 (not_or.mp (List.mem_cons.not.mp hnot)).2, fun hmem hmay ↦ ?_⟩
      refine (ih hrest).2 ((List.mem_cons.mp hmem).resolve_left ?_) hmay
      rintro rfl
      cases htracked.symm.trans hmay
    · obtain ⟨text, htext, h⟩ := Git.bind_eq_ok h
      split at h
      · cases h
      · obtain ⟨hfar, hnear⟩ := ih h
        refine ⟨fun hnot ↦ ?_, fun hmem hmay ↦ ?_⟩
        · obtain ⟨hne, hnot⟩ := not_or.mp (List.mem_cons.not.mp hnot)
          rw [hfar hnot, Function.update_of_ne hne]
        · by_cases hlater : path ∈ rest
          · exact hnear hlater hmay
          · obtain rfl : path = first := (List.mem_cons.mp hmem).resolve_right hlater
            exact ⟨text, htext, by rw [hfar hlater, Function.update_self]⟩

/-- Whoever enters a home that somebody activated has their own value of a name that a person supplies. -/
theorem entering_activated (htoml : ∀ manifest text, toml.render manifest = some text →
      toml.parse text = some manifest) (henv : tracks.mayWrite ENV = true)
    (hmanifest : tracks.mayWrite MANIFEST = true)
    (h : activate toml tracks fails subject recipe produced standIns writing secrets files =
      .ok (files', notes)) {reader : EnvName → Option Text}
    (hname : Supplied recipe produced standIns name) (hvalue : reader name = some value) :
    ∃ pairs, entering toml files' reader = .ok pairs ∧ pairs.lookup name = some value := by
  obtain ⟨generated, hgenerated, hwritten⟩ := activate_eq_ok h
  rw [write] at hwritten
  split at hwritten
  · cases hwritten
  · obtain ⟨_, rfl, hheld⟩ : ∃ text, dotenv (assembled subject recipe generated secrets) = text ∧
        files' ENV = some text := by
      obtain ⟨text, htext, hheld⟩ := (writeEach_eq_ok hwritten).2 (by decide) henv
      exact ⟨text, Except.ok.inj htext, hheld⟩
    obtain ⟨rendered, hrendered, hstated⟩ : ∃ rendered, toml.render
        ((assembled subject recipe generated secrets).manifest subject writing) = some rendered ∧
          files' MANIFEST = some rendered := by
      obtain ⟨rendered, hrendered, hstated⟩ := (writeEach_eq_ok hwritten).2 (by decide) hmanifest
      rw [contents, if_neg (by decide), if_neg (by decide)] at hrendered
      split at hrendered
      · next text htext =>
        cases hrendered
        exact ⟨_, htext, hstated⟩
      · cases hrendered
    refine ⟨asked reader (wanted ((assembled subject recipe generated secrets).manifest subject writing))
      (parseDotenv (dotenv (assembled subject recipe generated secrets))), ?_, ?_⟩
    · simp only [entering, hheld, hstated, Option.bind_some, htoml _ _ hrendered]
    · exact lookup_asked hvalue
        (.inr ⟨not_mem_parseDotenv hgenerated hname, mem_wanted hgenerated hname⟩)

def API_KEY : EnvName := ⟨"API_KEY".toList, by decide⟩

/-- A recipe that names a secret, and an identity name beside it. -/
def shop : Recipe := ⟨[], [], [API_KEY, ID]⟩

def fixLogin : Subject where
  unit := "01K1E8ZV7M3T9Q4W5X6Y7Z8A9B".toList
  slug := "fix-login".toList
  environment := "01K1E8ZV7N4V0R5X6Y7Z8A9BCD".toList
  project := "shop".toList
  host := "mac".toList
  home := "/work/fix-login".toList

def noon : Writing := ⟨1785412800, "0.4.0".toList⟩

/-- Secrets that answer both names with one text. -/
def answering (text : String) (name : EnvName) : Option Text :=
  if name = API_KEY ∨ name = ID then some text.toList else none

/-- The manifest of the home, and the file it is written as. -/
def fixLoginManifest : Manifest where
  unit := fixLogin.unit
  environment := fixLogin.environment
  slug := fixLogin.slug
  project := fixLogin.project
  host := fixLogin.host
  home := fixLogin.home
  writtenAt := noon.now
  binaryVersion := noon.binaryVersion
  env := [ID, UNIT, PROJECT, HOST, ROOT].foldl (·.set · .identity) ((∅ : Table _ _).set API_KEY .machine)
  missing := []

def fixLoginToml : Text :=
  String.toList <| String.intercalate "\n" [
    "unit = \"01K1E8ZV7M3T9Q4W5X6Y7Z8A9B\"", "environment = \"01K1E8ZV7N4V0R5X6Y7Z8A9BCD\"",
    "slug = \"fix-login\"", "project = \"shop\"", "host = \"mac\"", "home = \"/work/fix-login\"",
    "written_at = \"2026-07-30T12:00:00Z\"", "binary_version = \"0.4.0\"", "missing = []", "", "[env]",
    "API_KEY = \"machine\"", "NODAL_HOST = \"identity\"", "NODAL_ID = \"identity\"",
    "NODAL_PROJECT = \"identity\"", "NODAL_ROOT = \"identity\"", "NODAL_UNIT = \"identity\"", ""]

def ofFixLogin : Toml where
  render manifest := if manifest = fixLoginManifest then some fixLoginToml else none
  parse text := if text = fixLoginToml then some fixLoginManifest else none

end Nodal.Env
