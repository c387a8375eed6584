import Nodal.Env.Entering
import Nodal.Foundation.Quotes

/-!
# The activation a shell is given

`runtime/shells.rs` and the export form of `env/files.rs`: the assignments that give a shell a home's
environment, in the form its dialect reads, the last of them naming every variable the others set. What
the shell reads of them is each name with its value, whatever the value holds (`eval_assignments`).

The same values also go through the dotenv file a home keeps, and a value that ends in a double quote
is not the same when it is read back (`survives_iff`).
-/

set_option autoImplicit false

namespace Nodal.Runtime.Shells

open Foundation Foundation.Quotes Env

/-! ### The assignments -/

/-- The variable an activation writes to name the variables it set. -/
def EXPORTED : EnvName := ⟨"NODAL_EXPORTED".toList, by decide⟩

/-- A shell an activation can be written for. -/
inductive Shell
  | bash
  | zsh
  | fish
  deriving DecidableEq, Repr

/-- One assignment of the export form. -/
def exportLine (name value : Text) : Text :=
  "export ".toList ++ name ++ ['=', '\''] ++
    Text.replace ['\''] ['\'', '\\', '\'', '\''] value ++ ['\'', '\n']

/-- One `export NAME='value'` line per pair. -/
def renderExport (pairs : List (EnvName × Text)) : Text :=
  pairs.flatMap fun (name, value) ↦ exportLine name.text value

/-- One `set -gx NAME 'value'` line. -/
def fishAssignment (name value : Text) : Text :=
  let quoted := Text.replace ['\''] ['\\', '\''] (Text.replace ['\\'] ['\\', '\\'] value)
  "set -gx ".toList ++ name ++ [' ', '\''] ++ quoted ++ ['\'', '\n']

/-- The names of the pairs, a space between them. -/
def names (pairs : List (EnvName × Text)) : Text :=
  List.intercalate [' '] (pairs.map fun pair ↦ pair.1.text)

/-- The assignments that give this shell a home's environment. -/
def assignments (shell : Shell) (pairs : List (EnvName × Text)) : Text :=
  match shell with
  | .bash | .zsh =>
    renderExport pairs ++ "export ".toList ++ EXPORTED.text ++ ['=', '\''] ++ names pairs ++
      ['\'', '\n']
  | .fish =>
    (pairs.flatMap fun (name, value) ↦ fishAssignment name.text value) ++
      fishAssignment EXPORTED.text (names pairs)

/-! ### What a shell reads of them -/

/-- How a shell reads quotes. -/
def Shell.dialect : Shell → Dialect
  | .bash | .zsh => posix
  | .fish => Quotes.fish

/-- The variable a command sets, and the value it gives it. -/
def Shell.assigned (shell : Shell) (command : List Text) : Option (EnvName × Text) :=
  match shell, command with
  | .bash, [verb, word] | .zsh, [verb, word] =>
    if verb = "export".toList then do
      let (name, value) ← Text.splitOnce '=' word
      return (← EnvName.parse name, value)
    else none
  | .fish, [verb, scope, name, value] =>
    if verb = "set".toList ∧ scope = "-gx".toList then do return (← EnvName.parse name, value)
    else none
  | _, _ => none

/-- The variables a text of assignments sets, in order. -/
def eval (shell : Shell) (text : Text) : Option (List (EnvName × Text)) := do
  let read ← commands shell.dialect text
  read.mapM shell.assigned

/-- The value a variable has after assignments: the last it was given. -/
def valueOf (assigned : List (EnvName × Text)) (name : EnvName) : Option Text :=
  (assigned.reverse.find? (·.1 = name)).map Prod.snd

/-! ### Each assignment is read back -/

theorem EnvName.plainText (name : EnvName) : ∀ c ∈ name.text, isPlain c = true := by
  intro c hc
  rcases name.mem_text hc with hupper | hdigit | rfl
  · have halpha : c.isAlpha = true := Bool.or_eq_true_iff.mpr (.inl hupper)
    simp [isPlain, Char.isAlphanum, halpha]
  · simp [isPlain, Char.isAlphanum, hdigit]
  · decide

theorem EnvName.text_ne_nil (name : EnvName) : name.text ≠ [] := by
  intro hnil
  have haccepted := name.accepted.1
  rw [hnil] at haccepted
  cases haccepted

/-- An export line is one command of two words. -/
theorem run_exportLine (name : EnvName) (value : Text) (earlier : List (List Text)) :
    run posix (.between earlier) (exportLine name.text value) =
      some (.between (earlier ++ [["export".toList, name.text ++ '=' :: value]])) := by
  have htext : exportLine name.text value = "export".toList ++ ' ' :: ((name.text ++ ['=']) ++
      (('\'' :: (value.flatMap posixWritten ++ ['\''])) ++ ['\n'])) := by
    have hwritten : Text.replace ['\''] ['\'', '\\', '\'', '\''] value =
        value.flatMap posixWritten := Text.replace_singleton _ _ _
    unfold exportLine
    rw [hwritten]
    simp
  have hword : ∀ c ∈ name.text ++ ['='], isPlain c = true := by
    intro c hc
    rcases List.mem_append.mp hc with hname | hequals
    · exact EnvName.plainText name c hname
    · exact List.mem_singleton.mp hequals ▸ by decide
  have hverb : ∀ c ∈ "export".toList, isPlain c = true := List.all_eq_true.mp (by decide)
  rw [htext, Reader.between, run_append, run_plain (by decide) hverb, Option.bind_some, run_space,
    run_append, run_plain (by simp) hword, Option.bind_some, run_append, run_quoted posix_writes,
    Option.bind_some, run_newline]
  simp

/-- A fish assignment is one command of four words. -/
theorem run_fishAssignment (name : EnvName) (value : Text) (earlier : List (List Text)) :
    run Quotes.fish (.between earlier) (fishAssignment name.text value) =
      some (.between (earlier ++ [["set".toList, "-gx".toList, name.text, value]])) := by
  have hwritten : Text.replace ['\''] ['\\', '\'']
      (Text.replace ['\\'] ['\\', '\\'] value) = value.flatMap fishWritten := by
    rw [Text.replace_singleton, Text.replace_singleton, List.flatMap_assoc]
    refine List.flatMap_congr fun c _ ↦ ?_
    unfold fishWritten
    by_cases hslash : c = '\\'
    · simp [hslash]
    · by_cases hquote : c = '\''
      · simp [hquote]
      · simp [hslash, hquote]
  have htext : fishAssignment name.text value = "set".toList ++ ' ' :: ("-gx".toList ++ ' ' ::
      (name.text ++ ' ' :: (('\'' :: (value.flatMap fishWritten ++ ['\''])) ++ ['\n']))) := by
    unfold fishAssignment
    rw [hwritten]
    simp
  have hverb : ∀ c ∈ "set".toList, isPlain c = true := List.all_eq_true.mp (by decide)
  have hscope : ∀ c ∈ "-gx".toList, isPlain c = true := List.all_eq_true.mp (by decide)
  rw [htext, Reader.between, run_append, run_plain (by decide) hverb, Option.bind_some, run_space,
    run_append, run_plain (by decide) hscope, Option.bind_some, run_space, run_append,
    run_plain (EnvName.text_ne_nil name) (EnvName.plainText name), Option.bind_some, run_space,
    run_append, run_quoted fish_writes, Option.bind_some, run_newline]
  simp

/-! ### The whole of them -/

/-- The names need no escape between single quotes. -/
theorem names_unquoted (pairs : List (EnvName × Text)) : '\'' ∉ names pairs := by
  have hjoined : ∀ texts : List Text, (∀ text ∈ texts, '\'' ∉ text) →
      '\'' ∉ List.intercalate [' '] texts := by
    intro texts htexts
    induction texts with
    | nil => exact List.not_mem_nil
    | cons text texts ih =>
      obtain ⟨htext, hrest⟩ := List.forall_mem_cons.mp htexts
      cases texts with
      | nil => simpa using htext
      | cons next texts =>
        rw [List.intercalate_cons_cons]
        simp [htext, ih hrest]
  apply hjoined
  intro text htext hquote
  obtain ⟨pair, -, rfl⟩ := List.mem_map.mp htext
  exact absurd (EnvName.plainText pair.1 _ hquote) (by decide)

/-- The last assignment is one more of its kind: the names of the others, as a value. -/
theorem assignments_posix {shell : Shell} (h : shell ≠ .fish) (pairs : List (EnvName × Text)) :
    assignments shell pairs = renderExport (pairs ++ [(EXPORTED, names pairs)]) := by
  have hwhole : Text.replace ['\''] ['\'', '\\', '\'', '\''] (names pairs) = names pairs := by
    rw [Text.replace_singleton]
    calc (names pairs).flatMap _ = (names pairs).flatMap fun c ↦ [c] := by
          refine List.flatMap_congr fun c hc ↦ if_neg ?_
          rintro rfl
          exact names_unquoted pairs hc
      _ = names pairs := List.flatMap_singleton' _
  have hbash : assignments shell pairs = renderExport pairs ++ "export ".toList ++ EXPORTED.text ++
      ['=', '\''] ++ names pairs ++ ['\'', '\n'] := by
    cases shell with
    | bash => rfl
    | zsh => rfl
    | fish => exact absurd rfl h
  have hline : exportLine EXPORTED.text (names pairs) =
      "export ".toList ++ EXPORTED.text ++ ['=', '\''] ++ names pairs ++ ['\'', '\n'] := by
    unfold exportLine
    rw [hwhole]
  have hlast : renderExport (pairs ++ [(EXPORTED, names pairs)]) =
      renderExport pairs ++ exportLine EXPORTED.text (names pairs) := by
    rw [renderExport, List.flatMap_append, List.flatMap_singleton]
    rfl
  rw [hbash, hlast, hline]
  simp only [List.append_assoc]

/-- What a shell reads of the assignments is each name with its value, and then the names. -/
theorem eval_assignments (shell : Shell) (pairs : List (EnvName × Text)) :
    eval shell (assignments shell pairs) = some (pairs ++ [(EXPORTED, names pairs)]) := by
  set listed := pairs ++ [(EXPORTED, names pairs)] with hlisted
  have hposix (hshell : shell ≠ .fish) (pair : EnvName × Text) :
      shell.assigned ["export".toList, pair.1.text ++ '=' :: pair.2] = some pair := by
    have hequals : '=' ∉ pair.1.text := fun hmem ↦ (pair.1.plain hmem).2.1 rfl
    have hsplit : Text.splitOnce '=' (pair.1.text ++ '=' :: pair.2) = some (pair.1.text, pair.2) :=
      Text.splitOnce_append hequals
    cases shell with
    | bash => simp [Shell.assigned, hsplit, EnvName.parse_text]
    | zsh => simp [Shell.assigned, hsplit, EnvName.parse_text]
    | fish => exact absurd rfl hshell
  have hall {command : EnvName × Text → List Text}
      (hread : ∀ pair, shell.assigned (command pair) = some pair) :
      (listed.map command).mapM shell.assigned = some listed := by
    induction listed with
    | nil => rfl
    | cons pair listed ih => simp [hread, ih]
  rw [eval]
  cases shell with
  | fish =>
    have hlines : assignments .fish pairs =
        listed.flatMap fun pair ↦ fishAssignment pair.1.text pair.2 := by
      rw [hlisted, List.flatMap_append, List.flatMap_singleton]
      rfl
    rw [hlines, Shell.dialect, commands_flatMap fun pair earlier ↦
      run_fishAssignment pair.1 pair.2 earlier]
    exact hall fun pair ↦ by simp [Shell.assigned, EnvName.parse_text]
  | bash =>
    rw [assignments_posix (by decide), ← hlisted, Shell.dialect, renderExport,
      commands_flatMap fun pair earlier ↦ run_exportLine pair.1 pair.2 earlier]
    exact hall (hposix (by decide))
  | zsh =>
    rw [assignments_posix (by decide), ← hlisted, Shell.dialect, renderExport,
      commands_flatMap fun pair earlier ↦ run_exportLine pair.1 pair.2 earlier]
    exact hall (hposix (by decide))

/-! ### What survives both encodings -/

/-- The pairs of an activation. -/
def pairsOf (vars : List EnvVar) : List (EnvName × Text) :=
  vars.map fun var ↦ (var.name, var.value)

/-- Each variable is read back with its value: from the dotenv file those the file holds, in order, and
from the assignments of every shell all of them. -/
def Survives (activation : Activation) : Prop :=
  parseDotenv (dotenv activation) = pairsOf (activation.vars.filter (!isAPersonsOwn ·)) ∧
    ∀ shell, ∃ assigned, eval shell (assignments shell (pairsOf activation.vars)) = some assigned ∧
      ∀ pair ∈ pairsOf activation.vars, valueOf assigned pair.1 = some pair.2

/-- No value the file holds ends in a double quote, no name has two values, and a variable that has
the name the list of names is kept under is that list. -/
structure Kept (activation : Activation) : Prop where
  unquoted : ∀ var ∈ activation.vars, isAPersonsOwn var = false → var.value.getLast? ≠ some '"'
  single : ∀ var ∈ activation.vars, ∀ other ∈ activation.vars,
    var.name = other.name → var.value = other.value
  exported : ∀ var ∈ activation.vars, var.name = EXPORTED →
    var.value = names (pairsOf activation.vars)

/-- The value a variable has after the assignments: its last one, the list of the names being one
more. -/
theorem valueOf_append (pairs : List (EnvName × Text)) (last : EnvName × Text) (name : EnvName) :
    valueOf (pairs ++ [last]) name = if last.1 = name then some last.2 else valueOf pairs name := by
  rw [valueOf, List.reverse_append, List.reverse_singleton, List.singleton_append, List.find?_cons]
  by_cases hname : last.1 = name
  · simp [hname]
  · simp [hname, valueOf]

/-- A name that is listed has the value of one of its pairs. -/
theorem valueOf_of_mem {pairs : List (EnvName × Text)} {pair : EnvName × Text} (h : pair ∈ pairs) :
    ∃ last ∈ pairs, last.1 = pair.1 ∧ valueOf pairs pair.1 = some last.2 := by
  cases hfind : pairs.reverse.find? (·.1 = pair.1) with
  | none =>
    have hnot := List.find?_eq_none.mp hfind pair (List.mem_reverse.mpr h)
    simp at hnot
  | some last =>
    refine ⟨last, List.mem_reverse.mp (List.mem_of_find?_eq_some hfind), ?_, ?_⟩
    · simpa using List.find?_some hfind
    · rw [valueOf, hfind]
      rfl

/-- The file gives back the values that do not end in a double quote, and no other. -/
theorem parseDotenv_iff (activation : Activation) :
    parseDotenv (dotenv activation) = pairsOf (activation.vars.filter (!isAPersonsOwn ·)) ↔
      ∀ var ∈ activation.vars, isAPersonsOwn var = false → var.value.getLast? ≠ some '"' := by
  rw [parseDotenv_dotenv, pairsOf, List.map_inj_left]
  simp only [List.mem_filter, Bool.not_eq_true', Prod.mk.injEq, true_and, and_imp]
  exact forall₃_congr fun var _ _ ↦ unescape_quoted_iff

/-- The variables have their values in a shell exactly where none has two and the one that has the
name of the list is the list. -/
theorem eval_iff (activation : Activation) :
    (∀ shell, ∃ assigned, eval shell (assignments shell (pairsOf activation.vars)) = some assigned ∧
        ∀ pair ∈ pairsOf activation.vars, valueOf assigned pair.1 = some pair.2) ↔
      (∀ var ∈ activation.vars, ∀ other ∈ activation.vars,
          var.name = other.name → var.value = other.value) ∧
        ∀ var ∈ activation.vars, var.name = EXPORTED →
          var.value = names (pairsOf activation.vars) := by
  set pairs := pairsOf activation.vars with hpairs
  have hmem (var : EnvVar) (hvar : var ∈ activation.vars) : (var.name, var.value) ∈ pairs :=
    List.mem_map_of_mem hvar
  simp only [eval_assignments, Option.some.injEq, exists_eq_left', valueOf_append]
  constructor
  · intro hvalues
    have hvalue (var : EnvVar) (hvar : var ∈ activation.vars) :=
      hvalues .bash _ (hmem var hvar)
    constructor
    · intro var hvar other hother hname
      have hfirst := hvalue var hvar
      rw [hname, hvalue other hother, Option.some.injEq] at hfirst
      exact hfirst.symm
    · intro var hvar hname
      have hlast := hvalue var hvar
      rw [if_pos hname.symm, Option.some.injEq] at hlast
      exact hlast.symm
  · rintro ⟨hsingle, hexported⟩ _ pair hpair
    obtain ⟨var, hvar, rfl⟩ := List.mem_map.mp hpair
    split_ifs with hname
    · rw [hexported var hvar hname.symm]
    · obtain ⟨last, hlast, hsame, hvalue⟩ := valueOf_of_mem hpair
      obtain ⟨other, hother, rfl⟩ := List.mem_map.mp hlast
      rw [hvalue, hsingle other hother var hvar hsame]

/-- The activation survives both encodings exactly where no value the file holds ends in a double
quote, no name has two values, and no variable is lost under the list of names. -/
theorem survives_iff (activation : Activation) : Survives activation ↔ Kept activation := by
  rw [Survives, parseDotenv_iff, eval_iff]
  constructor
  · rintro ⟨hunquoted, hsingle, hexported⟩
    exact ⟨hunquoted, hsingle, hexported⟩
  · rintro ⟨hunquoted, hsingle, hexported⟩
    exact ⟨hunquoted, hsingle, hexported⟩

/-! ### A value that ends in a double quote -/

/-- A generated value with quotes around it, as a service may produce one. -/
private def greeting : Activation :=
  ⟨[⟨⟨"GREETING".toList, by decide⟩, .generated, "say \"hi\"".toList⟩], []⟩

/-- The file gives it back with a backslash in the place of its last character. -/
theorem last_quote_lost :
    ¬ ∀ activation : Activation, (activation.vars.map EnvVar.name).Nodup →
      parseDotenv (dotenv activation) =
        pairsOf (activation.vars.filter (!isAPersonsOwn ·)) := by
  intro hall
  have hgreeting := (parseDotenv_iff greeting).mp (hall greeting (by decide)) _
    List.mem_cons_self rfl
  exact hgreeting rfl

end Nodal.Runtime.Shells
