import Nodal.Foundation.Text

/-!
# The configuration files of Git

The grammar of a configuration file, read one character after another: sections and subsections, names in any
case, values with quotes, escapes and continued lines, names with no value, and comments. A file of lines as
Git writes them, one setting on a line and nothing quoted, is read as those settings (`settings_render`).
-/

set_option autoImplicit false

namespace Nodal.Foundation.Gitconfig

/-- A setting: its full name, and its value where it has one. -/
structure Setting where
  name : Text
  value : Option Text
  deriving DecidableEq

def isSpace (c : Char) : Bool := c = ' ' || c = '\t' || c = '\n' || c = '\r'

def isKeyChar (c : Char) : Bool := c.isAlphanum || c = '-'

/-- Where a reader is in a file, with what it has read there. -/
inductive Mode
  | line
  | comment
  | header (stem : Text)
  /-- After the blank before a subsection. -/
  | spaced (stem : Text)
  | quoted (stem : Text)
  | escaped (stem : Text)
  | closing (stem : Text)
  | key (name : Text)
  | blank (name : Text)
  /-- In a value, with the blanks that are part of it once something comes after them. -/
  | value (name kept pending : Text) (quote : Bool)
  | escape (name kept : Text) (quote : Bool)
  /-- In a comment after a value. -/
  | remark (name kept : Text)
  deriving DecidableEq

/-- What has been read of a file: the stem of the names in this section, and the settings. -/
structure Reader where
  stem : Text
  settings : List Setting
  mode : Mode
  deriving DecidableEq

namespace Reader

variable (reader : Reader)

def enter (mode : Mode) : Reader := { reader with mode := mode }

def emit (name : Text) (value : Option Text) : Reader :=
  { reader with settings := reader.settings ++ [⟨name, value⟩], mode := .line }

def close (stem : Text) : Reader := { reader with stem := stem ++ ['.'], mode := .line }

/-- What follows a name. -/
def afterName (name : Text) (c : Char) : Option Reader :=
  if c = ' ' ∨ c = '\t' then some (reader.enter (.blank name))
  else if c = '\n' then some (reader.emit name none)
  else if c = '=' then some (reader.enter (.value name [] [] false))
  else none

/-- One more character. -/
def step (c : Char) : Option Reader :=
  match reader.mode with
  | .line =>
    if isSpace c then some reader
    else if c = '#' ∨ c = ';' then some (reader.enter .comment)
    else if c = '[' then some (reader.enter (.header []))
    else if c.isAlpha then some (reader.enter (.key (reader.stem ++ [c.toLower])))
    else none
  | .comment => some (if c = '\n' then reader.enter .line else reader)
  | .header stem =>
    if c = ']' then some (reader.close stem)
    else if c = '\n' then none
    else if isSpace c then some (reader.enter (.spaced stem))
    else if isKeyChar c || c = '.' then some (reader.enter (.header (stem ++ [c.toLower])))
    else none
  | .spaced stem =>
    if c = '\n' then none
    else if isSpace c then some reader
    else if c = '"' then some (reader.enter (.quoted (stem ++ ['.'])))
    else none
  | .quoted stem =>
    if c = '\n' then none
    else if c = '"' then some (reader.enter (.closing stem))
    else if c = '\\' then some (reader.enter (.escaped stem))
    else some (reader.enter (.quoted (stem ++ [c])))
  | .escaped stem => if c = '\n' then none else some (reader.enter (.quoted (stem ++ [c])))
  | .closing stem => if c = ']' then some (reader.close stem) else none
  | .key name =>
    if isKeyChar c then some (reader.enter (.key (name ++ [c.toLower]))) else reader.afterName name c
  | .blank name => reader.afterName name c
  | .value name kept pending quote =>
    if c = '\n' then if quote then none else some (reader.emit name (some kept))
    else if isSpace c && !quote then
      some (reader.enter (.value name kept (if kept = [] then [] else pending ++ [c]) quote))
    else if (c = ';' || c = '#') && !quote then some (reader.enter (.remark name kept))
    else if c = '\\' then some (reader.enter (.escape name (kept ++ pending) quote))
    else if c = '"' then some (reader.enter (.value name (kept ++ pending) [] !quote))
    else some (reader.enter (.value name (kept ++ pending ++ [c]) [] quote))
  | .escape name kept quote =>
    if c = '\n' then some (reader.enter (.value name kept [] quote))
    else if c = 't' then some (reader.enter (.value name (kept ++ ['\t']) [] quote))
    else if c = 'b' then some (reader.enter (.value name (kept ++ ['\x08']) [] quote))
    else if c = 'n' then some (reader.enter (.value name (kept ++ ['\n']) [] quote))
    else if c = '\\' ∨ c = '"' then some (reader.enter (.value name (kept ++ [c]) [] quote))
    else none
  | .remark name kept => some (if c = '\n' then reader.emit name (some kept) else reader)

end Reader

/-- A line that ends in a carriage return and a line feed, ended by the line feed alone. -/
def unreturned : Text → Text
  | '\r' :: '\n' :: rest => '\n' :: unreturned rest
  | c :: rest => c :: unreturned rest
  | [] => []

/-- A text without the mark of its byte order. -/
def unmarked (text : Text) : Text := if text.head? = some '\uFEFF' then text.tail else text

def start : Reader := ⟨[], [], .line⟩

/-- The settings of a file in their order, where it can be read. The end of a file is read as the end of a
line, however often it is read. -/
def settings (text : Text) : Option (List Setting) :=
  ((unreturned (unmarked text) ++ ['\n', '\n']).foldlM Reader.step start).map Reader.settings

/-! ### Values -/

/-- The digits of a number in a base, and what is left. -/
def digits (base : ℕ) : ℕ → Text → ℕ × Text
  | n, c :: rest =>
    let digit := if c.isDigit then some (c.toNat - '0'.toNat)
      else if c.isLower then some (c.toNat - 'a'.toNat + 10)
      else if c.isUpper then some (c.toNat - 'A'.toNat + 10) else none
    match digit with
    | some d => if d < base then digits base (n * base + d) rest else (n, c :: rest)
    | none => (n, c :: rest)
  | n, [] => (n, [])

/-- How much a unit is after a number. -/
def factor (unit : Text) : Option ℕ :=
  match unit.map Char.toLower with
  | [] => some 1
  | ['k'] => some 1024
  | ['m'] => some 1048576
  | ['g'] => some 1073741824
  | _ => none

/-- The size of a number of 32 bits, in base eight, ten or sixteen and with a unit. Its sign is dropped. -/
def magnitude (text : Text) : Option ℕ :=
  let unspaced := text.dropWhile fun c ↦ isSpace c || c = '\x0B' || c = '\x0C'
  let unsigned := if unspaced.head? = some '-' ∨ unspaced.head? = some '+' then unspaced.tail else unspaced
  let read := match unsigned with
    | '0' :: x :: c :: rest =>
      if x.toLower = 'x' ∧ (digits 16 0 [c]).2 = [] then digits 16 0 (c :: rest) else digits 8 0 unsigned
    | '0' :: _ => digits 8 0 unsigned
    | _ => digits 10 0 unsigned
  if read.2 = unsigned then none
  else (factor read.2).bind fun unit ↦ if read.1 ≤ 2147483647 / unit then some (read.1 * unit) else none

/-- What a value says where it is true or false. A name with no value is true. -/
def truth : Option Text → Option Bool
  | none => some true
  | some text =>
    let word := String.ofList (text.map Char.toLower)
    if word = "" then some false
    else if word = "true" ∨ word = "yes" ∨ word = "on" then some true
    else if word = "false" ∨ word = "no" ∨ word = "off" then some false
    else (magnitude text).map (· ≠ 0)

/-- The last truth value of a name, where each one of that name is one. -/
def lastTruth (name : Text) (settings : List Setting) : Option (Option Bool) :=
  (settings.filter (·.name = name)).foldlM (fun _ setting ↦ (truth setting.value).map some) none

example : (settings "[Core]\n\tBare\n\tbare = \"fa\"lse # no\n[x \"Y\"] a=1 \\\n 2".toList) =
    some [⟨"core.bare".toList, none⟩, ⟨"core.bare".toList, some "false".toList⟩,
      ⟨"x.Y.a".toList, some "1  2".toList⟩] := by decide +kernel

/-! ### Files as Git writes them -/

/-- A line as Git writes it. -/
inductive Written
  | heading (name : Text)
  | subheading (name sub : Text)
  | setting (key value : Text)

def Written.body : Written → Text
  | heading name => '[' :: name ++ [']']
  | subheading name sub => '[' :: name ++ ' ' :: '"' :: sub ++ ['"', ']']
  | setting key value => '\t' :: key ++ ' ' :: '=' :: ' ' :: value

def render (lines : List Written) : Text := (lines.map Written.body).flatMap (· ++ ['\n'])

/-- A name in lower case. -/
def IsName (name : Text) : Prop := ∀ c ∈ name, isKeyChar c = true ∧ c.toLower = c

/-- A line that is read as it was written: names in lower case, and nothing that wants a quote. -/
def Written.Plain : Written → Prop
  | heading name => IsName name
  | subheading name sub => IsName name ∧ ∀ c ∈ sub, c ≠ '\n' ∧ c ≠ '\r' ∧ c ≠ '"' ∧ c ≠ '\\'
  | setting key value => IsName key ∧ (∃ first rest, key = first :: rest ∧ first.isAlpha = true) ∧
    (∀ c ∈ value.head?, Text.isWhitespace c = false) ∧ (∀ c ∈ value.getLast?, Text.isWhitespace c = false) ∧
      ∀ c ∈ value, c ≠ '\n' ∧ c ≠ '\r' ∧ c ≠ '"' ∧ c ≠ '\\' ∧ c ≠ ';' ∧ c ≠ '#'

/-- The settings that lines are, after a stem. -/
def readFrom : Text → List Written → List Setting
  | _, [] => []
  | _, .heading name :: lines => readFrom (name ++ ['.']) lines
  | _, .subheading name sub :: lines => readFrom (name ++ '.' :: sub ++ ['.']) lines
  | stem, .setting key value :: lines => ⟨stem ++ key, some value⟩ :: readFrom stem lines

/-- Read so many characters. -/
def Reader.run (reader : Reader) (text : Text) : Option Reader := text.foldlM Reader.step reader

section Run

variable {reader next : Reader} {c : Char} {text rest stem name kept pending : Text}

theorem run_cons (h : reader.step c = some next) : reader.run (c :: text) = next.run text := by
  show (reader.step c).bind (fun later ↦ later.run text) = _
  rw [h]
  rfl

theorem run_append (h : reader.run text = some next) : reader.run (text ++ rest) = next.run rest := by
  show (text ++ rest).foldlM Reader.step reader = _
  rw [List.foldlM_append]
  show (reader.run text).bind _ = _
  rw [h]
  rfl

theorem ne_of_isKeyChar {other : Char} (h : isKeyChar c = true) (hother : isKeyChar other = false) :
    c ≠ other := by
  rintro rfl
  rw [h] at hother
  cases hother

theorem not_isSpace_of_isKeyChar (h : isKeyChar c = true) : isSpace c = false := by
  simp only [isSpace, Bool.or_eq_false_iff, decide_eq_false_iff_not]
  exact ⟨⟨⟨ne_of_isKeyChar h (by decide), ne_of_isKeyChar h (by decide)⟩, ne_of_isKeyChar h (by decide)⟩,
    ne_of_isKeyChar h (by decide)⟩

theorem not_isSpace_of_not_isWhitespace (h : Text.isWhitespace c = false) : isSpace c = false := by
  by_contra hspace
  have hcases := eq_true_of_ne_false hspace
  simp only [isSpace, Bool.or_eq_true, decide_eq_true_eq] at hcases
  rcases hcases with ((rfl | rfl) | rfl) | rfl
  all_goals exact absurd h (by decide)

theorem run_header (h : IsName name) :
    (reader.enter (.header stem)).run name = some (reader.enter (.header (stem ++ name))) := by
  induction name generalizing stem with
  | nil => rw [List.append_nil]; rfl
  | cons c name ih =>
    obtain ⟨⟨hkey, hlower⟩, hname⟩ := List.forall_mem_cons.mp h
    have hstep : (reader.enter (.header stem)).step c = some (reader.enter (.header (stem ++ [c]))) := by
      show (if c = ']' then _ else if c = '\n' then _ else if isSpace c then _ else _) = _
      rw [if_neg (ne_of_isKeyChar hkey (by decide)), if_neg (ne_of_isKeyChar hkey (by decide)),
        not_isSpace_of_isKeyChar hkey, if_neg Bool.false_ne_true, hkey, Bool.true_or, if_pos rfl, hlower]
      rfl
    rw [run_cons hstep, ih hname, List.append_assoc]
    rfl

theorem run_key (h : IsName name) :
    (reader.enter (.key stem)).run name = some (reader.enter (.key (stem ++ name))) := by
  induction name generalizing stem with
  | nil => rw [List.append_nil]; rfl
  | cons c name ih =>
    obtain ⟨⟨hkey, hlower⟩, hname⟩ := List.forall_mem_cons.mp h
    have hstep : (reader.enter (.key stem)).step c = some (reader.enter (.key (stem ++ [c]))) := by
      show (if isKeyChar c then _ else _) = _
      rw [hkey, if_pos rfl, hlower]
      rfl
    rw [run_cons hstep, ih hname, List.append_assoc]
    rfl

theorem run_quoted (h : ∀ c ∈ text, c ≠ '\n' ∧ c ≠ '"' ∧ c ≠ '\\') :
    (reader.enter (.quoted stem)).run text = some (reader.enter (.quoted (stem ++ text))) := by
  induction text generalizing stem with
  | nil => rw [List.append_nil]; rfl
  | cons c text ih =>
    obtain ⟨⟨hline, hquote, hescape⟩, htext⟩ := List.forall_mem_cons.mp h
    have hstep : (reader.enter (.quoted stem)).step c = some (reader.enter (.quoted (stem ++ [c]))) := by
      show (if c = '\n' then _ else if c = '"' then _ else if c = '\\' then _ else _) = _
      rw [if_neg hline, if_neg hquote, if_neg hescape]
      rfl
    rw [run_cons hstep, ih htext, List.append_assoc]
    rfl

/-- The characters of a value are kept in their order, with the blanks after the last one apart. -/
theorem run_value (h : ∀ c ∈ text, c ≠ '\n' ∧ c ≠ '"' ∧ c ≠ '\\' ∧ c ≠ ';' ∧ c ≠ '#')
    (hkept : kept ≠ [] ∨ pending = [] ∧ ∀ c ∈ text.head?, isSpace c = false)
    (hlast : ∀ c ∈ text.getLast?, isSpace c = false) (hpending : text = [] → pending = []) :
    (reader.enter (.value name kept pending false)).run text =
      some (reader.enter (.value name (kept ++ pending ++ text) [] false)) := by
  induction text generalizing kept pending with
  | nil =>
    rw [hpending rfl, List.append_nil, List.append_nil]
    rfl
  | cons c text ih =>
    obtain ⟨⟨hline, hquote, hescape, hsemi, hhash⟩, htext⟩ := List.forall_mem_cons.mp h
    have hlater : ∀ c ∈ text.getLast?, isSpace c = false := fun other hother ↦
      hlast other (List.mem_getLast?_cons hother)
    cases hspace : isSpace c with
    | true =>
      have hne : kept ≠ [] := hkept.resolve_right fun hfirst ↦ by
        have := hfirst.2 c rfl
        rw [hspace] at this
        cases this
      have hmore : text ≠ [] := by
        rintro rfl
        have := hlast c rfl
        rw [hspace] at this
        cases this
      have hstep : (reader.enter (.value name kept pending false)).step c =
          some (reader.enter (.value name kept (pending ++ [c]) false)) := by
        show (if c = '\n' then _ else if isSpace c && !false then _ else _) = _
        rw [if_neg hline, hspace, if_pos (by decide), if_neg hne]
        rfl
      rw [run_cons hstep, ih htext (Or.inl hne) hlater (fun hnil ↦ absurd hnil hmore)]
      simp only [List.append_assoc, List.cons_append, List.nil_append]
    | false =>
      have hstep : (reader.enter (.value name kept pending false)).step c =
          some (reader.enter (.value name (kept ++ pending ++ [c]) [] false)) := by
        show (if c = '\n' then _ else if isSpace c && !false then _ else
          if (c = ';' || c = '#') && !false then _ else if c = '\\' then _ else if c = '"' then _ else _) = _
        rw [if_neg hline, hspace, if_neg (by decide), if_neg (by simp [hsemi, hhash]), if_neg hescape,
          if_neg hquote]
        rfl
      have hne : kept ++ pending ++ [c] ≠ [] := List.concat_ne_nil c _
      rw [run_cons hstep, ih htext (Or.inl hne) hlater fun _ ↦ rfl]
      simp only [List.append_assoc, List.cons_append, List.nil_append, List.append_nil]

theorem step_open {settings : List Setting} : (Reader.mk stem settings .line).step '[' =
    some (Reader.enter ⟨stem, settings, .line⟩ (.header [])) := rfl

/-- A line as Git writes it is read from any section on. -/
theorem run_line {line : Written} (h : line.Plain) (settings : List Setting) :
    (Reader.mk stem settings .line).run (line.body ++ ['\n']) = some (match line with
      | .heading name => ⟨name ++ ['.'], settings, .line⟩
      | .subheading name sub => ⟨name ++ '.' :: sub ++ ['.'], settings, .line⟩
      | .setting key value => ⟨stem, settings ++ [⟨stem ++ key, some value⟩], .line⟩) := by
  cases line with
  | heading name =>
    have hparts : Written.body (.heading name) ++ ['\n'] = '[' :: (name ++ [']', '\n']) := by
      simp only [Written.body, List.append_assoc, List.cons_append, List.nil_append]
    rw [hparts, run_cons step_open, run_append (run_header h)]
    rfl
  | subheading name sub =>
    obtain ⟨hname, hsub⟩ := h
    have hparts : Written.body (.subheading name sub) ++ ['\n'] =
        '[' :: (name ++ ' ' :: '"' :: (sub ++ ['"', ']', '\n'])) := by
      simp only [Written.body, List.append_assoc, List.cons_append, List.nil_append]
    rw [hparts, run_cons step_open, run_append (run_header hname)]
    have hspaced : (Reader.enter ⟨stem, settings, .line⟩ (.header ([] ++ name))).step ' ' =
        some (Reader.enter ⟨stem, settings, .line⟩ (.spaced name)) := rfl
    have hquoted : (Reader.enter ⟨stem, settings, .line⟩ (.spaced name)).step '"' =
        some (Reader.enter ⟨stem, settings, .line⟩ (.quoted (name ++ ['.']))) := rfl
    rw [run_cons hspaced, run_cons hquoted,
      run_append (run_quoted fun c hc ↦ ⟨(hsub c hc).1, (hsub c hc).2.2.1, (hsub c hc).2.2.2⟩),
      List.append_assoc]
    rfl
  | setting key value =>
    obtain ⟨hkey, ⟨first, rest, rfl, hfirst⟩, hhead, hlast, hvalue⟩ := h
    obtain ⟨⟨hchar, hlower⟩, hrest⟩ := List.forall_mem_cons.mp hkey
    have hparts : Written.body (.setting (first :: rest) value) ++ ['\n'] =
        '\t' :: first :: (rest ++ ' ' :: '=' :: ' ' :: (value ++ ['\n'])) := by
      simp only [Written.body, List.append_assoc, List.cons_append]
    have htab : (Reader.mk stem settings .line).step '\t' = some ⟨stem, settings, .line⟩ := rfl
    have hopen : (Reader.mk stem settings .line).step first =
        some (Reader.enter ⟨stem, settings, .line⟩ (.key (stem ++ [first]))) := by
      show (if isSpace first then _ else if first = '#' ∨ first = ';' then _ else if first = '[' then _ else
        if first.isAlpha then _ else _) = _
      have hcomment : ¬(first = '#' ∨ first = ';') :=
        not_or.mpr ⟨ne_of_isKeyChar hchar (by decide), ne_of_isKeyChar hchar (by decide)⟩
      rw [not_isSpace_of_isKeyChar hchar, if_neg Bool.false_ne_true, if_neg hcomment,
        if_neg (ne_of_isKeyChar hchar (by decide)), if_pos hfirst, hlower]
    have hblank : (Reader.enter ⟨stem, settings, .line⟩ (.key (stem ++ [first] ++ rest))).step ' ' =
        some (Reader.enter ⟨stem, settings, .line⟩ (.blank (stem ++ [first] ++ rest))) := rfl
    have hequals : (Reader.enter ⟨stem, settings, .line⟩ (.blank (stem ++ [first] ++ rest))).step '=' =
        some (Reader.enter ⟨stem, settings, .line⟩ (.value (stem ++ [first] ++ rest) [] [] false)) := rfl
    have hspace :
        (Reader.enter ⟨stem, settings, .line⟩ (.value (stem ++ [first] ++ rest) [] [] false)).step ' ' =
          some (Reader.enter ⟨stem, settings, .line⟩ (.value (stem ++ [first] ++ rest) [] [] false)) := rfl
    have hread := @run_value ⟨stem, settings, .line⟩ value (stem ++ [first] ++ rest) [] []
      (fun c hc ↦ ⟨(hvalue c hc).1, (hvalue c hc).2.2.1, (hvalue c hc).2.2.2.1, (hvalue c hc).2.2.2.2⟩)
      (Or.inr ⟨rfl, fun c hc ↦ not_isSpace_of_not_isWhitespace (hhead c hc)⟩)
      (fun c hc ↦ not_isSpace_of_not_isWhitespace (hlast c hc)) fun _ ↦ rfl
    rw [hparts, run_cons htab, run_cons hopen, run_append (run_key hrest), run_cons hblank, run_cons hequals,
      run_cons hspace, run_append hread, List.append_assoc]
    rfl

/-- Lines as Git writes them are read one after another. -/
theorem run_lines {lines : List Written} (h : ∀ line ∈ lines, line.Plain) (settings : List Setting) :
    ∃ last, (Reader.mk stem settings .line).run (render lines) =
      some ⟨last, settings ++ readFrom stem lines, .line⟩ := by
  induction lines generalizing stem settings with
  | nil => exact ⟨stem, by rw [readFrom, List.append_nil]; rfl⟩
  | cons line lines ih =>
    obtain ⟨hline, hlines⟩ := List.forall_mem_cons.mp h
    rw [render, List.map_cons, List.flatMap_cons, run_append (run_line hline settings)]
    cases line with
    | heading name => exact ih hlines settings
    | subheading name sub => exact ih hlines settings
    | setting key value =>
      obtain ⟨last, hlast⟩ := @ih stem hlines (settings ++ [⟨stem ++ key, some value⟩])
      refine ⟨last, hlast.trans ?_⟩
      rw [List.append_assoc]
      rfl

end Run

theorem unreturned_eq_self {text : Text} (h : '\r' ∉ text) : unreturned text = text := by
  induction text with
  | nil => rfl
  | cons c text ih =>
    obtain ⟨hc, htext⟩ := not_or.mp (List.mem_cons.not.mp h)
    rw [unreturned, ih htext]
    rintro rest rfl
    exact absurd rfl hc

theorem not_mem_body {line : Written} (h : line.Plain) : '\r' ∉ line.body ∧ '\n' ∉ line.body := by
  have hname {name : Text} (hname : IsName name) : '\r' ∉ name ∧ '\n' ∉ name :=
    ⟨fun hc ↦ absurd (hname _ hc).1 (by decide), fun hc ↦ absurd (hname _ hc).1 (by decide)⟩
  cases line with
  | heading name =>
    have hplain : IsName name := h
    simp [Written.body, hname hplain]
  | subheading name sub =>
    obtain ⟨hplain, hsub⟩ := h
    have hreturn : '\r' ∉ sub := fun hc ↦ (hsub _ hc).2.1 rfl
    have hline : '\n' ∉ sub := fun hc ↦ (hsub _ hc).1 rfl
    simp [Written.body, hname hplain, hreturn, hline]
  | setting key value =>
    obtain ⟨hplain, -, -, -, hvalue⟩ := h
    have hreturn : '\r' ∉ value := fun hc ↦ (hvalue _ hc).2.1 rfl
    have hline : '\n' ∉ value := fun hc ↦ (hvalue _ hc).1 rfl
    simp [Written.body, hname hplain, hreturn, hline]

theorem not_mem_render {lines : List Written} (h : ∀ line ∈ lines, line.Plain) : '\r' ∉ render lines := by
  intro hmem
  obtain ⟨body, hbody, hmem⟩ := List.mem_flatMap.mp hmem
  obtain ⟨line, hline, rfl⟩ := List.mem_map.mp hbody
  rcases List.mem_append.mp hmem with hmem | hmem
  · exact (not_mem_body (h line hline)).1 hmem
  · exact absurd (List.mem_singleton.mp hmem) (by decide)

/-- A file of lines as Git writes them is read as their settings. -/
theorem settings_render {lines : List Written} (h : ∀ line ∈ lines, line.Plain) :
    settings (render lines) = some (readFrom [] lines) := by
  have hmark : unmarked (render lines) = render lines := by
    rw [unmarked, if_neg]
    cases lines with
    | nil => nofun
    | cons line lines => cases line <;> nofun
  obtain ⟨last, hrun⟩ := @run_lines [] lines h []
  have hread : (render lines ++ ['\n', '\n']).foldlM Reader.step start =
      some ⟨last, readFrom [] lines, .line⟩ := run_append hrun
  rw [settings, hmark, unreturned_eq_self (not_mem_render h), hread]
  rfl

end Nodal.Foundation.Gitconfig
