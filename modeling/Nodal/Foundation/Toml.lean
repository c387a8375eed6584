import Nodal.Foundation.Text

/-!
# A part of TOML

The lines of TOML that a program writes: comments, blank lines, headers of bare names, and keys whose
values are basic strings, numbers, truth values and arrays of strings. `read` is what the grammar says of
these and nothing of any other text, so it is a part of every TOML reader.

A text that `Writes` some statements puts them before whatever comes after it, so a document written
piece by piece is read piece by piece (`Writes.append`).
-/

set_option autoImplicit false

namespace Nodal.Foundation.Toml

open Foundation.Text

/-! ### Values and statements -/

inductive Value
  | string (text : Text)
  | integer (number : ℕ)
  | boolean (truth : Bool)
  | strings (items : List Text)
  deriving DecidableEq

inductive Statement
  | header (name : List Text)
  | entry (key : Text) (value : Value)
  deriving DecidableEq

/-- One table: its name, and its keys with their values as they were written. -/
structure Table where
  name : List Text
  rows : List (Text × Value)
  deriving DecidableEq

abbrev Document := List Table

/-! ### Characters -/

/-- A character that a comment and a basic string may hold. -/
def isPlain (c : Char) : Bool := c = '\t' || (0x20 ≤ c.toNat && c.toNat ≠ 0x7f)

def isSpace (c : Char) : Bool := c = ' ' || c = '\t'

def isBlank (c : Char) : Bool := isSpace c || c = '\n'

/-- A character of a key that needs no quotes. -/
def isBare (c : Char) : Bool := c.isAlphanum || c = '_' || c = '-'

/-- The value of a hexadecimal digit. -/
def hexDigit (c : Char) : Option ℕ :=
  if c.isDigit then some (c.toNat - 48)
  else if 'A'.toNat ≤ c.toNat ∧ c.toNat ≤ 'F'.toNat then some (c.toNat - 55)
  else if 'a'.toNat ≤ c.toNat ∧ c.toNat ≤ 'f'.toNat then some (c.toNat - 87)
  else none

/-- The character of four hexadecimal digits. -/
def hexCode (a b c d : Char) : Option Char := do
  let number := (((← hexDigit a) * 16 + (← hexDigit b)) * 16 + (← hexDigit c)) * 16 + (← hexDigit d)
  if number.isValidChar then some (Char.ofNat number) else none

/-- What a character after a backslash stands for. -/
def unescape (c : Char) : Option Char :=
  if c = '"' then some '"'
  else if c = '\\' then some '\\'
  else if c = 'n' then some '\n'
  else if c = 'r' then some '\r'
  else if c = 't' then some '\t'
  else none

/-! ### Reading -/

/-- A basic string after its opening quote, and what comes after it. -/
def stringBody : Text → Option (Text × Text)
  | [] => none
  | '"' :: rest => some ([], rest)
  | '\\' :: 'u' :: a :: b :: c :: d :: rest => do
    let code ← hexCode a b c d
    let (body, after) ← stringBody rest
    return (code :: body, after)
  | '\\' :: c :: rest => do
    let code ← unescape c
    let (body, after) ← stringBody rest
    return (code :: body, after)
  | c :: rest => do
    let (body, after) ← stringBody rest
    if isPlain c then return (c :: body, after) else none

def key : Text → Option (Text × Text)
  | '"' :: rest => stringBody rest
  | text =>
    let bare := text.takeWhile isBare
    if bare = [] then none else some (bare, text.dropWhile isBare)

/-- The strings of an array after its opening bracket. -/
def items : ℕ → Text → Option (List Text × Text)
  | 0, _ => none
  | fuel + 1, text => match text.dropWhile isBlank with
    | ']' :: rest => some ([], rest)
    | '"' :: rest => do
      let (item, after) ← stringBody rest
      match after.dropWhile isBlank with
      | ',' :: more => do
        let (others, after) ← items fuel more
        return (item :: others, after)
      | ']' :: more => return ([item], more)
      | _ => none
    | _ => none

/-- A decimal number without leading zeros, as large as TOML has them. -/
def number (text : Text) : Option (ℕ × Text) :=
  let digits := text.takeWhile Char.isDigit
  match readDigits 0 digits with
  | some n => if decimal n = digits ∧ n < 2 ^ 63 then some (n, text.dropWhile Char.isDigit) else none
  | none => none

def value : Text → Option (Value × Text)
  | '"' :: rest => do
    let (body, after) ← stringBody rest
    return (.string body, after)
  | '[' :: rest => do
    let (found, after) ← items rest.length rest
    return (.strings found, after)
  | 't' :: 'r' :: 'u' :: 'e' :: rest => some (.boolean true, rest)
  | 'f' :: 'a' :: 'l' :: 's' :: 'e' :: rest => some (.boolean false, rest)
  | text => do
    let (found, after) ← number text
    return (.integer found, after)

/-- The names of a header after its opening bracket. -/
def header (text : Text) : Option (List Text × Text) :=
  let names := split '.' (text.takeWhile (· ≠ ']'))
  match text.dropWhile (· ≠ ']') with
  | _ :: after => if names.all (fun name ↦ name ≠ [] && name.all isBare) then some (names, after) else none
  | [] => none

def endOfLine (text : Text) : Option Text :=
  match text.dropWhile isSpace with
  | '\n' :: rest => some rest
  | _ => none

/-- A comment after its sign. -/
def comment (text : Text) : Option (Option Statement × Text) :=
  match text.dropWhile (· ≠ '\n') with
  | _ :: after =>
    if (chomp (text.takeWhile (· ≠ '\n'))).all isPlain then some (none, after) else none
  | [] => none

/-- A header after its opening bracket, to the end of its line. -/
def headerLine (text : Text) : Option (Option Statement × Text) := do
  let (names, after) ← header text
  let after ← endOfLine after
  return (some (.header names), after)

/-- A key and its value. -/
def entryLine (text : Text) : Option (Option Statement × Text) := do
  let (found, after) ← key text
  match after.dropWhile isSpace with
  | '=' :: more => do
    let (given, after) ← value (more.dropWhile isSpace)
    let after ← endOfLine after
    return (some (.entry found given), after)
  | _ => none

/-- One line, or more where an array goes over them, and what comes after. -/
def line (text : Text) : Option (Option Statement × Text) :=
  match text.dropWhile isSpace with
  | [] => none
  | '\n' :: rest => some (none, rest)
  | '#' :: rest => comment rest
  | '[' :: rest => headerLine rest
  | c :: rest => entryLine (c :: rest)

/-- The statements of a text. -/
def statements : ℕ → Text → Option (List Statement)
  | _, [] => some []
  | 0, _ => none
  | fuel + 1, text => do
    let (found, rest) ← line text
    if rest.length < text.length then
      let others ← statements fuel rest
      return found.toList ++ others
    else none

/-- The tables of statements, the first with the rows read so far. -/
def tables : List Text → List (Text × Value) → List Statement → Document
  | name, rows, [] => [⟨name, rows⟩]
  | name, rows, .entry found given :: rest => tables name (rows ++ [(found, given)]) rest
  | name, rows, .header next :: rest => ⟨name, rows⟩ :: tables next [] rest

/-- No table is opened twice, no key is set twice, and no key is a table. -/
structure Distinct (document : Document) : Prop where
  names : (document.map Table.name).Nodup
  keys : ∀ table ∈ document, (table.rows.map Prod.fst).Nodup
  apart : ∀ table ∈ document, ∀ row ∈ table.rows, ∀ other ∈ document,
    ¬(table.name ++ [row.1]) <+: other.name

instance (document : Document) : Decidable (Distinct document) :=
  decidable_of_iff ((document.map Table.name).Nodup ∧
    (∀ table ∈ document, (table.rows.map Prod.fst).Nodup) ∧
    ∀ table ∈ document, ∀ row ∈ table.rows, ∀ other ∈ document,
      ¬(table.name ++ [row.1]) <+: other.name)
    ⟨fun h ↦ ⟨h.1, h.2.1, h.2.2⟩, fun h ↦ ⟨h.names, h.keys, h.apart⟩⟩

/-- A document of the lines above, or nothing. -/
def read (text : Text) : Option Document := do
  let document := tables [] [] (← statements text.length text)
  if Distinct document then some document else none

/-! ### What a string is read from -/

section Strings

variable {c : Char} {rest : Text}

theorem stringBody_quote : stringBody ('"' :: rest) = some ([], rest) := rfl

theorem stringBody_plain (hplain : isPlain c = true) (hquote : c ≠ '"') (hslash : c ≠ '\\') :
    stringBody (c :: rest) = (stringBody rest).map fun found ↦ (c :: found.1, found.2) := by
  rw [stringBody]
  · cases stringBody rest <;> simp [hplain]
  · exact fun h ↦ hquote h
  · exact fun _ _ _ _ _ h _ ↦ hslash h
  · exact fun _ _ h _ ↦ hslash h

theorem stringBody_escaped {code : Char} (hcode : unescape c = some code) (hnot : c ≠ 'u') :
    stringBody ('\\' :: c :: rest) = (stringBody rest).map fun found ↦ (code :: found.1, found.2) := by
  rw [stringBody]
  · rw [hcode]
    cases stringBody rest <;> rfl
  · exact fun _ _ _ _ _ h _ ↦ hnot h

theorem stringBody_code {a b d e code : Char} (hcode : hexCode a b d e = some code) :
    stringBody ('\\' :: 'u' :: a :: b :: d :: e :: rest) =
      (stringBody rest).map fun found ↦ (code :: found.1, found.2) := by
  rw [stringBody, hcode]
  cases stringBody rest <;> rfl

end Strings

/-! ### What is written -/

/-- What a text says, line by line. -/
inductive Reads : Text → List Statement → Prop
  | done : Reads [] []
  | line {text rest : Text} {found : Option Statement} {others : List Statement}
      (hline : line text = some (found, rest)) (hshorter : rest.length < text.length)
      (hrest : Reads rest others) : Reads text (found.toList ++ others)

theorem statements_of_reads {text : Text} {said : List Statement} (h : Reads text said) {fuel : ℕ}
    (hfuel : text.length ≤ fuel) : statements fuel text = some said := by
  induction h generalizing fuel with
  | done => cases fuel <;> rfl
  | @line text rest found others hline hshorter _ ih =>
    cases fuel with
    | zero => omega
    | succ fuel =>
      have hrest : statements fuel rest = some others := ih (by omega)
      cases text with
      | nil => simp at hshorter
      | cons c text =>
        rw [statements, hline]
        · simp only [Option.bind_eq_bind, Option.bind_some]
          rw [if_pos hshorter, hrest]
          rfl
        · exact List.cons_ne_nil c text

/-- A text that says some statements before whatever comes after it. -/
def Writes (text : Text) (said : List Statement) : Prop :=
  ∀ (rest : Text) (others : List Statement), Reads rest others → Reads (text ++ rest) (said ++ others)

theorem Writes.nil : Writes [] [] := fun _ _ h ↦ h

theorem Writes.append {first second : Text} {said more : List Statement} (h : Writes first said)
    (h' : Writes second more) : Writes (first ++ second) (said ++ more) := by
  intro rest others hrest
  rw [List.append_assoc, List.append_assoc]
  exact h _ _ (h' _ _ hrest)

/-- A line that is read whole, whatever comes after it. -/
theorem Writes.of_line {text : Text} {found : Option Statement} (hne : text ≠ [])
    (h : ∀ rest, line (text ++ rest) = some (found, rest)) : Writes text found.toList := by
  intro rest others hrest
  refine .line (h rest) ?_ hrest
  have hpos := List.length_pos_iff.mpr hne
  rw [List.length_append]
  omega

theorem Writes.flatMap {α : Type} {written : α → Text} {said : α → List Statement} {pieces : List α}
    (h : ∀ piece ∈ pieces, Writes (written piece) (said piece)) :
    Writes (pieces.flatMap written) (pieces.flatMap said) := by
  induction pieces with
  | nil => exact Writes.nil
  | cons piece pieces ih =>
    obtain ⟨hpiece, hpieces⟩ := List.forall_mem_cons.mp h
    exact hpiece.append (ih hpieces)

/-! ### Lines -/

theorem dropWhile_space_cons {c : Char} {rest : Text} (h : isSpace c = false) :
    (c :: rest).dropWhile isSpace = c :: rest :=
  List.dropWhile_cons_of_neg (by simp [h])

theorem writes_blank : Writes ['\n'] [] :=
  @Writes.of_line _ none (List.cons_ne_nil _ _) fun _ ↦ rfl

/-- What a comment may hold: what TOML takes, and a carriage return where the line ends. -/
def Commentable (body : Text) : Prop := '\n' ∉ body ∧ (chomp body).all isPlain = true

instance (body : Text) : Decidable (Commentable body) := inferInstanceAs (Decidable (_ ∧ _))

theorem writes_comment {body : Text} (h : Commentable body) : Writes ('#' :: body ++ ['\n']) [] := by
  refine @Writes.of_line _ none (List.cons_ne_nil _ _) fun rest ↦ ?_
  have hstop : ∀ c ∈ body, (decide (c ≠ '\n')) = true := by
    intro c hc
    rw [decide_eq_true_eq]
    rintro rfl
    exact h.1 hc
  have hbody : '#' :: body ++ ['\n'] ++ rest = '#' :: (body ++ '\n' :: rest) := by simp
  have hline : line ('#' :: (body ++ '\n' :: rest)) = comment (body ++ '\n' :: rest) := rfl
  rw [hbody, hline, comment, List.dropWhile_append_of_pos hstop, List.takeWhile_append_of_pos hstop]
  simp [h.2]

theorem mem_intercalate {separator c : Char} {fields : List Text}
    (h : c ∈ List.intercalate [separator] fields) : c = separator ∨ ∃ field ∈ fields, c ∈ field := by
  induction fields with
  | nil => simp [List.intercalate] at h
  | cons field fields ih =>
    cases fields with
    | nil => exact .inr ⟨field, List.mem_cons_self, by simpa [List.intercalate] using h⟩
    | cons next fields =>
      have hcut : List.intercalate [separator] (field :: next :: fields) =
          field ++ separator :: List.intercalate [separator] (next :: fields) := by
        simp [List.intercalate]
      rw [hcut, List.mem_append, List.mem_cons] at h
      rcases h with hhere | hseparator | hlater
      · exact .inr ⟨field, List.mem_cons_self, hhere⟩
      · exact .inl hseparator
      · exact (ih hlater).imp_right fun ⟨other, hother, hc⟩ ↦ ⟨other, List.mem_cons_of_mem _ hother, hc⟩

/-- A header of bare names. -/
theorem writes_header {names : List Text} (hne : names ≠ [])
    (h : ∀ name ∈ names, name ≠ [] ∧ name.all isBare = true) :
    Writes ('[' :: List.intercalate ['.'] names ++ "]\n".toList) [.header names] := by
  have hbare {c : Char} (hc : isBare c = true) : c ≠ ']' ∧ c ≠ '.' := by
    constructor <;> rintro rfl <;> revert hc <;> decide
  have hchars {name : Text} (hname : name ∈ names) {c : Char} (hc : c ∈ name) : c ≠ ']' ∧ c ≠ '.' :=
    hbare (List.all_eq_true.mp (h name hname).2 c hc)
  have hdots : ∀ name ∈ names, '.' ∉ name := fun name hname hmem ↦ (hchars hname hmem).2 rfl
  have hstop : ∀ c ∈ List.intercalate ['.'] names, (decide (c ≠ ']')) = true := by
    intro c hc
    rw [decide_eq_true_eq]
    rcases mem_intercalate hc with rfl | ⟨name, hname, hmem⟩
    · decide
    · exact (hchars hname hmem).1
  refine @Writes.of_line _ (some (.header names)) (List.cons_ne_nil _ _) fun rest ↦ ?_
  have hline : line ('[' :: List.intercalate ['.'] names ++ "]\n".toList ++ rest) =
      headerLine (List.intercalate ['.'] names ++ ']' :: '\n' :: rest) := by
    simp [line, isSpace]
  have hheader : header (List.intercalate ['.'] names ++ ']' :: '\n' :: rest) =
      some (names, '\n' :: rest) := by
    rw [header, List.dropWhile_append_of_pos hstop, List.takeWhile_append_of_pos hstop]
    simp only [ne_eq, not_true_eq_false, decide_false, Bool.false_eq_true, not_false_eq_true,
      List.takeWhile_cons_of_neg, List.append_nil, List.dropWhile_cons_of_neg,
      split_intercalate hne hdots]
    refine if_pos (List.all_eq_true.mpr fun name hname ↦ ?_)
    rw [Bool.and_eq_true, decide_eq_true_eq]
    exact h name hname
  rw [hline, headerLine, hheader]
  rfl

theorem line_of_key {c : Char} {rest : Text} (hspace : isSpace c = false) (hnewline : c ≠ '\n')
    (hcomment : c ≠ '#') (hheader : c ≠ '[') : line (c :: rest) = entryLine (c :: rest) := by
  rw [line, dropWhile_space_cons hspace]
  split
  · next h => cases h
  · next h => exact absurd (List.cons.inj h).1 hnewline
  · next h => exact absurd (List.cons.inj h).1 hcomment
  · next h => exact absurd (List.cons.inj h).1 hheader
  · next h => rw [h]

/-- A key and its value, where each is read whole. -/
theorem writes_entry {c first : Char} {written given found : Text} {held : Value}
    (hspace : isSpace c = false) (hnewline : c ≠ '\n') (hcomment : c ≠ '#') (hheader : c ≠ '[')
    (hkey : ∀ rest, key (c :: written ++ ' ' :: rest) = some (found, ' ' :: rest))
    (hfirst : isSpace first = false)
    (hvalue : ∀ rest, value (first :: given ++ '\n' :: rest) = some (held, '\n' :: rest)) :
    Writes (c :: written ++ " = ".toList ++ (first :: given) ++ ['\n']) [.entry found held] := by
  refine @Writes.of_line _ (some (.entry found held)) (by simp) fun rest ↦ ?_
  have hcut : c :: written ++ " = ".toList ++ (first :: given) ++ ['\n'] ++ rest =
      c :: (written ++ ' ' :: '=' :: ' ' :: (first :: given ++ '\n' :: rest)) := by
    simp
  have hfound : key (c :: (written ++ ' ' :: '=' :: ' ' :: (first :: given ++ '\n' :: rest))) =
      some (found, ' ' :: '=' :: ' ' :: (first :: given ++ '\n' :: rest)) := hkey _
  have hskip (more : Text) : (' ' :: more).dropWhile isSpace = more.dropWhile isSpace :=
    List.dropWhile_cons_of_pos rfl
  rw [hcut, line_of_key hspace hnewline hcomment hheader, entryLine, hfound]
  simp only [Option.bind_eq_bind, Option.bind_some]
  rw [hskip, dropWhile_space_cons (by decide)]
  simp only
  rw [hskip, List.cons_append, dropWhile_space_cons hfirst, ← List.cons_append, hvalue]
  rfl

/-! ### Values -/

/-- A string in its quotes. -/
def Quoted (written held : Text) : Prop :=
  ∃ body, written = '"' :: body ∧ ∀ rest, stringBody (body ++ rest) = some (held, rest)

theorem Quoted.readKey {written held : Text} (h : Quoted written held) (rest : Text) :
    key (written ++ rest) = some (held, rest) := by
  obtain ⟨body, rfl, hbody⟩ := h
  exact hbody rest

theorem Quoted.readValue {written held : Text} (h : Quoted written held) (rest : Text) :
    value (written ++ rest) = some (.string held, rest) := by
  obtain ⟨body, rfl, hbody⟩ := h
  rw [List.cons_append, Toml.value, hbody]
  rfl

theorem value_boolean (truth : Bool) (rest : Text) :
    value ((if truth then "true".toList else "false".toList) ++ rest) = some (.boolean truth, rest) := by
  cases truth <;> rfl

theorem number_decimal {n : ℕ} (hn : n < 2 ^ 63) {c : Char} (hc : c.isDigit = false) (rest : Text) :
    number (decimal n ++ c :: rest) = some (n, c :: rest) := by
  have hdigits : ∀ d ∈ decimal n, d.isDigit = true := fun d hd ↦ isDigit_of_mem_decimal hd
  have htake : (decimal n ++ c :: rest).takeWhile Char.isDigit = decimal n := by
    rw [List.takeWhile_append_of_pos hdigits, List.takeWhile_cons_of_neg (by simp [hc]), List.append_nil]
  have hdrop : (decimal n ++ c :: rest).dropWhile Char.isDigit = c :: rest := by
    rw [List.dropWhile_append_of_pos hdigits, List.dropWhile_cons_of_neg (by simp [hc])]
  simp only [number, htake, hdrop, readDigits_decimal]
  exact if_pos ⟨trivial, hn⟩

theorem value_integer {n : ℕ} (hn : n < 2 ^ 63) (rest : Text) :
    value (decimal n ++ '\n' :: rest) = some (.integer n, '\n' :: rest) := by
  obtain ⟨first, more, hfirst⟩ := List.exists_cons_of_ne_nil (decimal_ne_nil n)
  have hdigit : first.isDigit = true := isDigit_of_mem_decimal (hfirst ▸ List.mem_cons_self)
  have hnot {c : Char} (hc : c.isDigit = false) : first ≠ c := by
    rintro rfl
    rw [hc] at hdigit
    cases hdigit
  have hnumber := number_decimal hn (by decide : '\n'.isDigit = false) rest
  rw [hfirst, List.cons_append] at hnumber ⊢
  rw [value, hnumber]
  · rfl
  · exact fun _ h ↦ hnot (by decide) (List.cons.inj h).1
  · exact fun _ h ↦ hnot (by decide) (List.cons.inj h).1
  · exact fun _ h ↦ hnot (by decide) (List.cons.inj h).1
  · exact fun _ h ↦ hnot (by decide) (List.cons.inj h).1

/-! ### Arrays -/

theorem dropWhile_blank {lead : Text} (h : ∀ c ∈ lead, isBlank c = true) {c : Char} {rest : Text}
    (hc : isBlank c = false) : (lead ++ c :: rest).dropWhile isBlank = c :: rest := by
  rw [List.dropWhile_append_of_pos h, List.dropWhile_cons_of_neg (by simp [hc])]

/-- The strings of an array, with blanks before the first, after each comma and after the last. -/
theorem items_joined {gap close rest : Text} (hgap : ∀ c ∈ gap, isBlank c = true)
    (hclose : ∀ c ∈ close, isBlank c = true) {written held : List Text}
    (h : List.Forall₂ Quoted written held) {lead : Text} (hlead : ∀ c ∈ lead, isBlank c = true)
    {fuel : ℕ} (hfuel : written.length < fuel) :
    items fuel (lead ++ (List.intercalate (',' :: gap) written ++ (close ++ ']' :: rest))) =
      some (held, rest) := by
  induction h generalizing lead fuel with
  | nil =>
    obtain ⟨fuel, rfl⟩ := Nat.exists_eq_succ_of_ne_zero (Nat.pos_iff_ne_zero.mp hfuel)
    have hblank : ∀ c ∈ lead ++ close, isBlank c = true :=
      List.forall_mem_append.mpr ⟨hlead, hclose⟩
    rw [items, List.intercalate_nil, List.nil_append, ← List.append_assoc,
      dropWhile_blank hblank (by decide)]
    rfl
  | @cons first value written held hfirst hrest ih =>
    obtain ⟨fuel, rfl⟩ := Nat.exists_eq_succ_of_ne_zero (Nat.ne_zero_of_lt hfuel)
    obtain ⟨body, rfl, hbody⟩ := hfirst
    cases hrest with
    | nil =>
      have htext : lead ++ (List.intercalate (',' :: gap) ['"' :: body] ++ (close ++ ']' :: rest)) =
          lead ++ '"' :: (body ++ (close ++ ']' :: rest)) := by
        simp [List.intercalate]
      have hend : (close ++ ']' :: rest).dropWhile isBlank = ']' :: rest :=
        dropWhile_blank hclose (by decide)
      rw [htext, items, dropWhile_blank hlead (by decide)]
      simp only [hbody, Option.bind_eq_bind, Option.bind_some, hend]
      rfl
    | @cons second value' written held hsecond hrest =>
      have htext : lead ++ (List.intercalate (',' :: gap) (('"' :: body) :: second :: written) ++
          (close ++ ']' :: rest)) = lead ++ '"' :: (body ++ ',' ::
            (gap ++ (List.intercalate (',' :: gap) (second :: written) ++ (close ++ ']' :: rest)))) := by
        simp [List.intercalate]
      have hcomma (more : Text) : (',' :: more).dropWhile isBlank = ',' :: more := rfl
      have hless : (second :: written).length < fuel := by
        rw [List.length_cons] at hfuel
        omega
      rw [htext, items, dropWhile_blank hlead (by decide)]
      simp only [hbody, Option.bind_eq_bind, Option.bind_some, hcomma, ih hgap hless]
      rfl

theorem length_le_intercalate {separator : Text} {fields : List Text}
    (h : ∀ field ∈ fields, field ≠ []) : fields.length ≤ (List.intercalate separator fields).length := by
  induction fields with
  | nil => exact Nat.zero_le _
  | cons field fields ih =>
    obtain ⟨hfield, hfields⟩ := List.forall_mem_cons.mp h
    have hpos := List.length_pos_iff.mpr hfield
    cases fields with
    | nil =>
      simp only [List.intercalate_singleton, List.length_singleton]
      omega
    | cons next fields =>
      have hrest := ih hfields
      have hcut : List.intercalate separator (field :: next :: fields) =
          field ++ (separator ++ List.intercalate separator (next :: fields)) := by
        simp [List.intercalate]
      rw [hcut, List.length_append, List.length_append, List.length_cons]
      omega

theorem ne_nil_of_quoted {written held : List Text} (h : List.Forall₂ Quoted written held) :
    ∀ field ∈ written, field ≠ [] := by
  induction h with
  | nil => exact List.forall_mem_nil _
  | cons hfirst _ ih =>
    obtain ⟨body, rfl, -⟩ := hfirst
    exact List.forall_mem_cons.mpr ⟨List.cons_ne_nil _ _, ih⟩

/-- An array of strings. -/
theorem value_strings {lead gap close : Text} (hlead : ∀ c ∈ lead, isBlank c = true)
    (hgap : ∀ c ∈ gap, isBlank c = true) (hclose : ∀ c ∈ close, isBlank c = true)
    {written held : List Text} (h : List.Forall₂ Quoted written held) (rest : Text) :
    value ('[' :: (lead ++ (List.intercalate (',' :: gap) written ++ (close ++ ']' :: rest)))) =
      some (.strings held, rest) := by
  have hlonger : written.length < (lead ++ (List.intercalate (',' :: gap) written ++
      (close ++ ']' :: rest))).length := by
    have hle := @length_le_intercalate (',' :: gap) written (ne_nil_of_quoted h)
    simp only [List.length_append, List.length_cons]
    omega
  rw [value, items_joined hgap hclose h hlead hlonger]
  rfl

/-! ### Rows -/

/-- A key as it stands before the sign of its value. -/
structure IsKey (written found : Text) : Prop where
  lead : ∃ c rest, written = c :: rest ∧ isSpace c = false ∧ c ≠ '\n' ∧ c ≠ '#' ∧ c ≠ '['
  read : ∀ rest, key (written ++ ' ' :: rest) = some (found, ' ' :: rest)

/-- A value as it stands after the sign of its key. -/
structure IsValue (written : Text) (held : Value) : Prop where
  lead : ∃ c rest, written = c :: rest ∧ isSpace c = false
  read : ∀ rest, value (written ++ '\n' :: rest) = some (held, '\n' :: rest)

theorem writes_row {written given found : Text} {held : Value} (hkey : IsKey written found)
    (hvalue : IsValue given held) :
    Writes (written ++ " = ".toList ++ given ++ ['\n']) [.entry found held] := by
  obtain ⟨⟨c, more, rfl, hspace, hnewline, hcomment, hheader⟩, hread⟩ := hkey
  obtain ⟨⟨first, others, rfl, hfirst⟩, hgiven⟩ := hvalue
  exact writes_entry hspace hnewline hcomment hheader hread hfirst hgiven

/-- A key of bare characters is itself. -/
theorem isKey_bare {name : Text} (hne : name ≠ []) (h : name.all isBare = true) : IsKey name name := by
  obtain ⟨c, rest, rfl⟩ := List.exists_cons_of_ne_nil hne
  have hall := List.all_eq_true.mp h
  have hc : isBare c = true := hall c List.mem_cons_self
  have hnot {other : Char} (hother : isBare other = false) : c ≠ other := by
    rintro rfl
    rw [hc] at hother
    cases hother
  refine ⟨⟨c, rest, rfl, ?_, hnot (by decide), hnot (by decide), hnot (by decide)⟩, fun more ↦ ?_⟩
  · simp [isSpace, hnot (by decide : isBare ' ' = false), hnot (by decide : isBare '\t' = false)]
  · have hspace : isBare ' ' ≠ true := by decide
    rw [List.cons_append, key]
    · rw [← List.cons_append, List.takeWhile_append_of_pos hall, List.dropWhile_append_of_pos hall,
        List.takeWhile_cons_of_neg hspace, List.dropWhile_cons_of_neg hspace, List.append_nil]
      exact if_neg hne
    · exact fun _ h ↦ hnot (by decide : isBare '"' = false) (List.cons.inj h).1

theorem Quoted.isKey {written held : Text} (h : Quoted written held) : IsKey written held := by
  refine ⟨?_, fun rest ↦ h.readKey _⟩
  obtain ⟨body, rfl, -⟩ := h
  exact ⟨'"', body, rfl, by decide, by decide, by decide, by decide⟩

theorem Quoted.isValue {written held : Text} (h : Quoted written held) :
    IsValue written (.string held) := by
  refine ⟨?_, fun rest ↦ h.readValue _⟩
  obtain ⟨body, rfl, -⟩ := h
  exact ⟨'"', body, rfl, by decide⟩

theorem isValue_boolean (truth : Bool) :
    IsValue (if truth then "true".toList else "false".toList) (.boolean truth) := by
  refine ⟨?_, fun rest ↦ value_boolean truth _⟩
  cases truth
  · exact ⟨'f', _, rfl, by decide⟩
  · exact ⟨'t', _, rfl, by decide⟩

theorem isValue_integer {n : ℕ} (hn : n < 2 ^ 63) : IsValue (decimal n) (.integer n) := by
  obtain ⟨first, more, hfirst⟩ := List.exists_cons_of_ne_nil (decimal_ne_nil n)
  have hdigit : first.isDigit = true := isDigit_of_mem_decimal (hfirst ▸ List.mem_cons_self)
  refine ⟨⟨first, more, hfirst, ?_⟩, value_integer hn⟩
  rw [isSpace, Bool.or_eq_false_iff, decide_eq_false_iff_not, decide_eq_false_iff_not]
  constructor
  · rintro rfl
    exact absurd hdigit (by decide)
  · rintro rfl
    exact absurd hdigit (by decide)

/-- An array of strings, with blanks after its bracket, after each comma and at its end. -/
theorem isValue_strings {lead gap close : Text} (hlead : ∀ c ∈ lead, isBlank c = true)
    (hgap : ∀ c ∈ gap, isBlank c = true) (hclose : ∀ c ∈ close, isBlank c = true)
    {written held : List Text} (h : List.Forall₂ Quoted written held) :
    IsValue ('[' :: (lead ++ (List.intercalate (',' :: gap) written ++ (close ++ [']']))))
      (.strings held) := by
  refine ⟨⟨'[', _, rfl, by decide⟩, fun rest ↦ ?_⟩
  have hread := value_strings hlead hgap hclose h ('\n' :: rest)
  simpa using hread

/-! ### Documents -/

/-- The statements of a table's rows. -/
def Table.entries (table : Table) : List Statement := table.rows.map fun row ↦ .entry row.1 row.2

/-- The statements of a document whose first table is the one no header opens. -/
def said : Document → List Statement
  | [] => []
  | root :: rest => root.entries ++ rest.flatMap fun table ↦ .header table.name :: table.entries

theorem tables_said (name : List Text) (held rows : List (Text × Value)) (rest : Document) :
    tables name held (said (⟨name, rows⟩ :: rest)) = ⟨name, held ++ rows⟩ :: rest := by
  induction rest generalizing name held rows with
  | nil =>
    simp only [said, List.flatMap_nil, List.append_nil, Table.entries]
    induction rows generalizing held with
    | nil => simp [tables]
    | cons row rows ih => rw [List.map_cons, tables, ih, List.append_assoc, List.singleton_append]
  | cons table rest ih =>
    simp only [said, Table.entries]
    induction rows generalizing held with
    | nil =>
      rw [List.map_nil, List.nil_append, List.flatMap_cons, List.cons_append, tables, List.append_nil]
      exact congrArg _ (ih table.name [] table.rows)
    | cons row rows ih' => rw [List.map_cons, List.cons_append, tables, ih', List.append_assoc,
        List.singleton_append]

/-- A text that says what a document does is read as that document. -/
theorem read_of_writes {text : Text} {rows : List (Text × Value)} {rest : Document}
    (h : Writes text (said (⟨[], rows⟩ :: rest))) (hdistinct : Distinct (⟨[], rows⟩ :: rest)) :
    read text = some (⟨[], rows⟩ :: rest) := by
  have hreads : Reads text (said (⟨[], rows⟩ :: rest)) := by
    have hall := h [] [] .done
    rwa [List.append_nil, List.append_nil] at hall
  have htables := tables_said [] [] rows rest
  rw [List.nil_append] at htables
  rw [read, statements_of_reads hreads le_rfl]
  simp only [Option.bind_eq_bind, Option.bind_some, htables]
  exact if_pos hdistinct

end Nodal.Foundation.Toml
