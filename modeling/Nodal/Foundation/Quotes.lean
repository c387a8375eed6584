import Nodal.Foundation.Text

/-!
# How a shell reads words and single quotes

A reader of commands: words with white space between them, a new line at the end of each command, and
single quotes, which keep what is between them. Dialects part over the characters a backslash
stands before inside single quotes: none in the POSIX shell, two in fish. The reader takes no character
it would have to give another meaning outside quotes.

A value whose quote marks were written the dialect's way is read back as it was, whatever it holds
(`run_quoted`).
-/

set_option autoImplicit false

namespace Nodal.Foundation.Quotes

/-- The characters a backslash inside single quotes stands before. -/
structure Dialect where
  inside : List Char

/-- Where a reader is: outside quotes, after a backslash there, inside quotes, after one there. -/
inductive Mode
  | bare
  | escape
  | quoted
  | quotedEscape
  deriving DecidableEq, Repr

/-- What a reader has read: the word it is in, the words of this command, and the commands before. -/
structure Reader where
  mode : Mode
  word : Option Text
  words : List Text
  commands : List (List Text)
  deriving DecidableEq

namespace Reader

/-- A reader at the start of a command. -/
def between (commands : List (List Text)) : Reader := ⟨.bare, none, [], commands⟩

/-- One more character of the word. -/
def push (reader : Reader) (c : Char) : Reader :=
  { reader with word := some (reader.word.getD [] ++ [c]) }

/-- The words of the command, with the one being read. -/
def all (reader : Reader) : List Text := reader.words ++ reader.word.toList

end Reader

/-- Whether a character stands for itself outside quotes. -/
def isPlain (c : Char) : Bool := c.isAlphanum || c = '_' || c = '=' || c = '-'

/-- Read one character, where the reader knows what it stands for. -/
def step (dialect : Dialect) (reader : Reader) (c : Char) : Option Reader :=
  match reader.mode with
  | .bare =>
    if c = '\'' then some { reader with mode := .quoted, word := some (reader.word.getD []) }
    else if c = '\\' then some { reader with mode := .escape }
    else if c = '\n' then some (.between (reader.commands ++ [reader.all]))
    else if c = ' ' then some { reader with word := none, words := reader.all }
    else if isPlain c then some (reader.push c)
    else none
  | .escape =>
    if c = '\n' ∨ isPlain c then none else some { reader.push c with mode := .bare }
  | .quoted =>
    if c = '\'' then some { reader with mode := .bare }
    else if c = '\\' ∧ dialect.inside ≠ [] then some { reader with mode := .quotedEscape }
    else some (reader.push c)
  | .quotedEscape =>
    if c ∈ dialect.inside then some { reader.push c with mode := .quoted }
    else some { (reader.push '\\').push c with mode := .quoted }

/-- Read a text, a character at a time. -/
def run (dialect : Dialect) : Reader → Text → Option Reader
  | reader, [] => some reader
  | reader, c :: rest => (step dialect reader c).bind (run dialect · rest)

/-- The commands of a text that ends where a command does. -/
def commands (dialect : Dialect) (text : Text) : Option (List (List Text)) := do
  let reader ← run dialect (.between []) text
  if reader = .between reader.commands then some reader.commands else none

variable {dialect : Dialect} {reader : Reader}

theorem run_append (first second : Text) :
    run dialect reader (first ++ second) = (run dialect reader first).bind (run dialect · second) := by
  induction first generalizing reader with
  | nil => rfl
  | cons c first ih =>
    rw [List.cons_append, run, run]
    cases step dialect reader c with
    | none => rfl
    | some next => exact ih

/-! ### Words -/

variable {word : Option Text} {words : List Text} {earlier : List (List Text)}

/-- Plain characters are read as themselves. -/
theorem run_plain {text : Text} (hne : text ≠ []) (h : ∀ c ∈ text, isPlain c = true) :
    run dialect ⟨.bare, word, words, earlier⟩ text =
      some ⟨.bare, some (word.getD [] ++ text), words, earlier⟩ := by
  induction text generalizing word with
  | nil => exact absurd rfl hne
  | cons c text ih =>
    obtain ⟨hc, htext⟩ := List.forall_mem_cons.mp h
    have hstep : step dialect ⟨.bare, word, words, earlier⟩ c =
        some ⟨.bare, some (word.getD [] ++ [c]), words, earlier⟩ := by
      have hquote : c ≠ '\'' := fun heq ↦ absurd hc (heq ▸ by decide)
      have hslash : c ≠ '\\' := fun heq ↦ absurd hc (heq ▸ by decide)
      have hline : c ≠ '\n' := fun heq ↦ absurd hc (heq ▸ by decide)
      have hspace : c ≠ ' ' := fun heq ↦ absurd hc (heq ▸ by decide)
      simp [step, hquote, hslash, hline, hspace, hc, Reader.push]
    rw [run, hstep, Option.bind_some]
    cases text with
    | nil => rfl
    | cons d text =>
      rw [ih (List.cons_ne_nil _ _) htext, Option.getD_some, List.append_assoc]
      rfl

/-- A space ends the word. -/
theorem run_space (rest : Text) : run dialect ⟨.bare, word, words, earlier⟩ (' ' :: rest) =
    run dialect ⟨.bare, none, words ++ word.toList, earlier⟩ rest :=
  rfl

/-- A new line ends the command. -/
theorem run_newline : run dialect ⟨.bare, word, words, earlier⟩ ['\n'] =
    some (.between (earlier ++ [words ++ word.toList])) :=
  rfl

/-- Lines each of which is read as one command are read as the commands. -/
theorem commands_flatMap {α : Type*} {line : α → Text} {command : α → List Text}
    (h : ∀ one earlier, run dialect (.between earlier) (line one) =
      some (.between (earlier ++ [command one]))) (list : List α) :
    commands dialect (list.flatMap line) = some (list.map command) := by
  have hrun : ∀ earlier, run dialect (.between earlier) (list.flatMap line) =
      some (.between (earlier ++ list.map command)) := by
    induction list with
    | nil => simp [run]
    | cons one list ih =>
      intro earlier
      rw [List.flatMap_cons, run_append, h, Option.bind_some, ih, List.map_cons, List.append_assoc]
      rfl
  rw [commands, hrun []]
  exact if_pos rfl

/-! ### Quotes -/

/-- How a dialect writes one character between single quotes. -/
def Writes (dialect : Dialect) (written : Char → Text) : Prop :=
  ∀ word words earlier c, run dialect ⟨.quoted, some word, words, earlier⟩ (written c) =
    some ⟨.quoted, some (word ++ [c]), words, earlier⟩

theorem run_written {written : Char → Text} (h : Writes dialect written) (word value : Text) :
    run dialect ⟨.quoted, some word, words, earlier⟩ (value.flatMap written) =
      some ⟨.quoted, some (word ++ value), words, earlier⟩ := by
  induction value generalizing word with
  | nil =>
    rw [List.append_nil]
    rfl
  | cons c value ih =>
    rw [List.flatMap_cons, run_append, h, Option.bind_some, ih, List.append_assoc]
    rfl

/-- A value between single quotes is read back as it was, in the word it is part of. -/
theorem run_quoted {written : Char → Text} (h : Writes dialect written) (value : Text) :
    run dialect ⟨.bare, word, words, earlier⟩ ('\'' :: (value.flatMap written ++ ['\''])) =
      some ⟨.bare, some (word.getD [] ++ value), words, earlier⟩ := by
  have hopen : step dialect ⟨.bare, word, words, earlier⟩ '\'' =
      some ⟨.quoted, some (word.getD []), words, earlier⟩ := rfl
  rw [run, hopen, Option.bind_some, run_append, run_written h, Option.bind_some]
  rfl

/-! ### The dialects -/

/-- The POSIX shell: nothing has a meaning between single quotes but the one that closes them. -/
def posix : Dialect := ⟨[]⟩

/-- Close the quotes, write the mark after a backslash, and open them again. -/
def posixWritten (c : Char) : Text := if c = '\'' then ['\'', '\\', '\'', '\''] else [c]

theorem posix_writes : Writes posix posixWritten := by
  intro word words earlier c
  unfold posixWritten
  split_ifs with hquote
  · rw [hquote]
    rfl
  · simp [run, step, hquote, posix, Reader.push]

/-- fish: a backslash stands before a backslash and before a single quote. -/
def fish : Dialect := ⟨['\\', '\'']⟩

/-- Write the two characters after a backslash. -/
def fishWritten (c : Char) : Text := if c = '\\' ∨ c = '\'' then ['\\', c] else [c]

theorem fish_writes : Writes fish fishWritten := by
  intro word words earlier c
  unfold fishWritten
  split_ifs with hspecial
  · rcases hspecial with rfl | rfl <;> rfl
  · obtain ⟨hslash, hquote⟩ := not_or.mp hspecial
    simp [run, step, hslash, hquote, Reader.push]

end Nodal.Foundation.Quotes
