import Nodal.Foundation.Utf8
import Mathlib.Data.List.Sort

/-!
# The mounts a scan reads

`doctor/scan.rs`: the kernel lists the mounts of a process a row a line, and writes the white space of
a path by its number in octal. The scan splits a row at white space, takes the fifth word for the
mount point and reads it byte by byte, each byte for one character. The kernel escapes the space, the
tab, the new line and the backslash and nothing else, and writes every other character in UTF-8, so
what the scan reads is the mount point where the path is ASCII and holds no other white space, and
is another path where it is not (`named_iff`).
-/

set_option autoImplicit false

namespace Nodal.Doctor.Mounts

open Foundation Foundation.Text

/-! ### What the scan reads of a row -/

/-- The character of a number, where there is one. -/
def fromU32 (number : ℕ) : Option Char :=
  if number.isValidChar then some (Char.ofNat number) else none

/-- The value of a digit, less the number of the first digit in eight bits. -/
def digit (byte : UInt8) : ℕ := (byte - 48).toNat

/-- Octal escapes in a path of the table. -/
def unescape : List UInt8 → Text
  | [] => []
  | byte :: rest =>
    if byte = 92 then match rest with
      | a :: b :: c :: rest =>
        (fromU32 (digit a <<< 6 ||| digit b <<< 3 ||| digit c)).getD '\\' :: unescape rest
      | _ => ['\\']
    else (fromU32 byte.toNat).toList ++ unescape rest

/-- What stands between the two halves of a row. -/
def SEPARATOR : Text := [' ', '-', ' ']

/-- One row of the table as a mount point and a filesystem type. -/
def parseMount (line : Text) : Option (Text × Text) := do
  let (left, right) ← splitOnceAt SEPARATOR line
  let mount ← (words left)[4]?
  let fstype ← (words right)[0]?
  return (unescape (bytes mount), fstype)

/-- The mount points and their filesystem types, before they are sorted. -/
def rows (table : Text) : List (Text × Text) :=
  (lines table).filterMap parseMount

/-- The mounts this process can see, the longest path first. -/
def load (table : Text) : List (Text × Text) :=
  (rows table).mergeSort fun first second ↦ (bytes second.1).length ≤ (bytes first.1).length

/-- The names a path goes through. -/
def components (path : Text) : List Text :=
  (split '/' path).filter fun name ↦ name ≠ [] ∧ name ≠ ['.']

/-- Whether a path is a directory or under it, both from the root. -/
def startsWith (directory path : Text) : Bool :=
  (components directory).isPrefixOf (components path)

/-- The filesystem type of the longest matching mount point. -/
def fstype (mounts : List (Text × Text)) (path : Text) : Option Text :=
  (mounts.find? fun mount ↦ startsWith mount.1 path).map Prod.snd

/-! ### What the kernel writes -/

/-- The characters of a path the kernel escapes. -/
def ESCAPED : List Char := [' ', '\t', '\n', '\\']

/-- A character by its number, in three octal digits. -/
def octal (c : Char) : Text :=
  let digit (n : ℕ) : Char := Char.ofNat (48 + n)
  ['\\', digit (c.toNat / 64), digit (c.toNat / 8 % 8), digit (c.toNat % 8)]

/-- One character of a path as the table has it. -/
def mangled (c : Char) : Text := if c ∈ ESCAPED then octal c else [c]

/-- A path as the table has it. -/
def mangle (path : Text) : Text := path.flatMap mangled

/-- A field of a row that holds no path: one word, which is not the separator. -/
structure Field where
  text : Text
  ne_nil : text ≠ []
  word : ∀ c ∈ text, isWhitespace c = false
  ne_separator : text ≠ ['-']

/-- A path from the root. -/
structure AbsPath where
  text : Text
  absolute : text.head? = some '/'

/-- A mount of this process. -/
structure Mount where
  id : Field
  parent : Field
  device : Field
  /-- The directory of the filesystem that is mounted. -/
  root : AbsPath
  point : AbsPath
  options : Field
  tags : List Field
  fstype : Field
  /-- The source and the options of the filesystem. -/
  rest : Text
  rest_line : '\n' ∉ rest

/-- The fields of a row before the separator. -/
def Mount.fields (mount : Mount) : List Text :=
  [mount.id.text, mount.parent.text, mount.device.text, mangle mount.root.text,
    mangle mount.point.text, mount.options.text] ++ mount.tags.map Field.text

/-- Fields with a space between them. -/
def spaced : List Text → Text
  | [] => []
  | [field] => field
  | field :: fields => field ++ ' ' :: spaced fields

/-- The row the kernel writes for a mount. -/
def Mount.line (mount : Mount) : Text :=
  spaced mount.fields ++ SEPARATOR ++ mount.fstype.text ++ ' ' :: mount.rest

/-! ### White space the kernel leaves in a path -/

/-- Whether a character breaks a path of the table in two. -/
def breaks (c : Char) : Bool := isWhitespace c && !ESCAPED.contains c

theorem mangled_ne_nil (c : Char) : mangled c ≠ [] := by
  unfold mangled octal
  split_ifs <;> exact List.cons_ne_nil _ _

theorem mangled_word {c : Char} (h : breaks c = false) :
    ∀ d ∈ mangled c, isWhitespace d = false := by
  unfold mangled
  split_ifs with hescaped
  · have hall : ESCAPED.all (fun c ↦ (octal c).all (!isWhitespace ·)) = true := by decide
    simpa using List.all_eq_true.mp hall c hescaped
  · intro d hd
    rw [List.mem_singleton.mp hd]
    simpa [breaks, hescaped] using h

theorem mangled_of_breaks {c : Char} (h : breaks c = true) :
    mangled c = [c] ∧ isWhitespace c = true := by
  obtain ⟨hspace, hnot⟩ := Bool.and_eq_true_iff.mp h
  exact ⟨if_neg (by simpa using hnot), hspace⟩

theorem mangle_append (first second : Text) :
    mangle (first ++ second) = mangle first ++ mangle second :=
  List.flatMap_append

theorem mangle_eq_nil_iff {path : Text} : mangle path = [] ↔ path = [] := by
  cases path with
  | nil => simp [mangle]
  | cons c path => simp [mangle, mangled_ne_nil]

/-- A path's words in the table are its runs between the white space the kernel leaves. -/
theorem wordsFrom_mangle (current path : Text) :
    runsFrom isWhitespace (mangle current) (mangle path) =
      (runsFrom breaks current path).map mangle := by
  induction path generalizing current with
  | nil =>
    have hnil : mangle [] = [] := rfl
    rw [hnil, runsFrom, runsFrom]
    simp only [mangle_eq_nil_iff]
    split_ifs <;> rfl
  | cons c path ih =>
    have hcons : mangle (c :: path) = mangled c ++ mangle path := List.flatMap_cons
    cases hbreaks : breaks c with
    | true =>
      obtain ⟨hone, hspace⟩ := mangled_of_breaks hbreaks
      have hih := ih []
      rw [hcons, hone, List.singleton_append, runsFrom, runsFrom, if_pos hspace, if_pos hbreaks,
        List.map_append, ← hih]
      simp only [mangle_eq_nil_iff]
      split_ifs <;> rfl
    | false =>
      have hnext : mangle (current ++ [c]) = mangle current ++ mangled c := by
        rw [mangle_append]
        simp [mangle]
      rw [hcons, runsFrom_unbroken_append (mangled_word hbreaks), runsFrom, hbreaks, ← hnext]
      exact ih _

theorem words_mangle (path : Text) : words (mangle path) = (runs breaks path).map mangle :=
  wordsFrom_mangle [] path

/-! ### Reading a path back -/

theorem fromU32_latin (byte : UInt8) : fromU32 byte.toNat = some (latin byte) :=
  if_pos (Or.inl (byte.toNat_lt.trans (by decide)))

/-- Bytes none of which is a backslash are read each for one character. -/
theorem unescape_append {before : List UInt8} (h : ∀ byte ∈ before, byte ≠ 92)
    (after : List UInt8) : unescape (before ++ after) = before.map latin ++ unescape after := by
  induction before with
  | nil => rfl
  | cons byte before ih =>
    obtain ⟨hbyte, hbefore⟩ := List.forall_mem_cons.mp h
    rw [List.cons_append, unescape.eq_def]
    simp [hbyte, fromU32_latin, ih hbefore]

/-- The bytes of a character other than the backslash hold none. -/
theorem bytes_ne_backslash {c : Char} (h : c ≠ '\\') : ∀ byte ∈ bytes [c], byte ≠ 92 := by
  rcases Nat.lt_or_ge c.toNat 128 with hascii | hnot
  · rw [bytes_of_ascii hascii]
    intro byte hbyte heq
    have hnumber : (UInt8.ofNat c.toNat).toNat = 92 := by
      rw [← List.mem_singleton.mp hbyte, heq]
      rfl
    rw [UInt8.toNat_ofNat', Nat.mod_eq_of_lt (by omega)] at hnumber
    exact h (Char.toNat_inj.mp hnumber)
  · intro byte hbyte heq
    have hhigh := (bytes_of_not_ascii hnot).2 byte hbyte
    rw [heq] at hhigh
    exact absurd hhigh (by decide)

/-- An escape is read as the character it stands for. -/
theorem unescape_octal {c : Char} (h : c ∈ ESCAPED) (after : List UInt8) :
    unescape (bytes (octal c) ++ after) = c :: unescape after := by
  simp only [ESCAPED, List.mem_cons, List.not_mem_nil, or_false] at h
  rcases h with rfl | rfl | rfl | rfl <;> rfl

/-- What is read of a path the kernel wrote is the path misread. -/
theorem unescape_mangle (path : Text) : unescape (bytes (mangle path)) = misread path := by
  induction path with
  | nil => rfl
  | cons c path ih =>
    have hcons : mangle (c :: path) = mangled c ++ mangle path := List.flatMap_cons
    rw [hcons, bytes_append, misread_cons]
    unfold mangled
    split_ifs with hescaped
    · rw [unescape_octal hescaped, ih]
      have hall : ESCAPED.all (·.toNat < 128) = true := by decide
      have hascii : c.toNat < 128 := of_decide_eq_true (List.all_eq_true.mp hall c hescaped)
      rw [misread_of_ascii_char hascii, List.singleton_append]
    · have hne : c ≠ '\\' := fun heq ↦ hescaped (heq ▸ by decide)
      rw [unescape_append (bytes_ne_backslash hne), ih]
      rfl

/-! ### Reading a row -/

theorem spaced_cons (field : Text) (fields : List Text) (after : Text) :
    ∃ rest, spaced (field :: fields) ++ SEPARATOR ++ after = field ++ ' ' :: rest := by
  cases fields with
  | nil => exact ⟨'-' :: ' ' :: after, by simp [spaced, SEPARATOR]⟩
  | cons next fields => exact ⟨spaced (next :: fields) ++ SEPARATOR ++ after, by simp [spaced]⟩

/-- The separator is not found where a field begins, since no field is one. -/
theorem not_separator {field : Text} (hspace : ' ' ∉ field) (hne : field ≠ ['-']) (rest : Text) :
    SEPARATOR.isPrefixOf (' ' :: (field ++ ' ' :: rest)) = false := by
  match field with
  | [] => rfl
  | [c] =>
    have hc : c ≠ '-' := fun heq ↦ hne (by rw [heq])
    simp [SEPARATOR, List.isPrefixOf, hc.symm]
  | c :: d :: field =>
    have hd : d ≠ ' ' := fun heq ↦ hspace (by simp [heq])
    simp [SEPARATOR, List.isPrefixOf, hd.symm]

/-- The separator is found after the last of the fields. -/
theorem splitOnceAt_spaced {fields : List Text} (hne : fields ≠ [])
    (h : ∀ field ∈ fields, ' ' ∉ field ∧ field ≠ ['-']) (after : Text) :
    splitOnceAt SEPARATOR (spaced fields ++ SEPARATOR ++ after) = some (spaced fields, after) := by
  induction fields with
  | nil => exact absurd rfl hne
  | cons field fields ih =>
    obtain ⟨⟨hspace, -⟩, hfields⟩ := List.forall_mem_cons.mp h
    cases fields with
    | nil =>
      rw [spaced, List.append_assoc, SEPARATOR, splitOnceAt_append hspace]
      simp [splitOnceAt]
    | cons next fields =>
      obtain ⟨⟨hnext, hdash⟩, -⟩ := List.forall_mem_cons.mp hfields
      obtain ⟨rest, hrest⟩ := spaced_cons next fields after
      have hskip := not_separator hnext hdash rest
      have htail := ih (List.cons_ne_nil _ _) hfields
      have htext : spaced (field :: next :: fields) ++ SEPARATOR ++ after =
          field ++ ' ' :: (spaced (next :: fields) ++ SEPARATOR ++ after) := by simp [spaced]
      rw [htext, SEPARATOR, splitOnceAt_append hspace, ← SEPARATOR, splitOnceAt, hrest, if_neg (by
        rw [hskip]; exact Bool.false_ne_true), ← hrest, htail]
      rfl

/-- The words of fields with spaces between them are the words of each. -/
theorem words_spaced (fields : List Text) : words (spaced fields) = fields.flatMap words := by
  induction fields with
  | nil => rfl
  | cons field fields ih =>
    cases fields with
    | nil => simp [spaced]
    | cons next fields =>
      have hspace : isWhitespace ' ' = true := by decide
      have hbreak := runs_append hspace field (spaced (next :: fields))
      exact hbreak.trans (congrArg (words field ++ ·) ih)

theorem Field.words_text (field : Field) : words field.text = [field.text] :=
  runs_of_unbroken field.ne_nil field.word

theorem Field.space_not_mem (field : Field) : ' ' ∉ field.text := fun hmem ↦
  absurd (field.word ' ' hmem) (by decide)

/-- No character the kernel escapes is left in a path but the backslash. -/
theorem not_mem_mangle {c : Char} (h : c ∈ ESCAPED) (hne : c ≠ '\\') (path : Text) :
    c ∉ mangle path := by
  intro hmem
  obtain ⟨d, -, hd⟩ := List.mem_flatMap.mp hmem
  unfold mangled at hd
  split_ifs at hd with hescaped
  · revert hd hne h
    simp only [ESCAPED, List.mem_cons, List.not_mem_nil, or_false] at hescaped ⊢
    rcases hescaped with rfl | rfl | rfl | rfl <;> rintro (rfl | rfl | rfl | rfl) <;> decide
  · exact hescaped (List.mem_singleton.mp hd ▸ h)

/-- A path in the table is not the separator. -/
theorem AbsPath.mangle_ne (path : AbsPath) : mangle path.text ≠ ['-'] := by
  obtain ⟨text, habsolute⟩ := path
  cases text with
  | nil => cases habsolute
  | cons c text =>
    obtain rfl : c = '/' := Option.some.inj habsolute
    intro heq
    have hhead := congrArg List.head? heq
    simp [mangle, mangled, ESCAPED] at hhead

theorem Mount.fields_apart (mount : Mount) :
    ∀ field ∈ mount.fields, ' ' ∉ field ∧ field ≠ ['-'] := by
  have hpath (path : AbsPath) : ' ' ∉ mangle path.text ∧ mangle path.text ≠ ['-'] :=
    ⟨not_mem_mangle (by decide) (by decide) _, path.mangle_ne⟩
  have hfield (field : Field) : ' ' ∉ field.text ∧ field.text ≠ ['-'] :=
    ⟨field.space_not_mem, field.ne_separator⟩
  intro field hmem
  simp only [Mount.fields, List.mem_append, List.mem_cons, List.not_mem_nil, or_false,
    List.mem_map] at hmem
  rcases hmem with (rfl | rfl | rfl | rfl | rfl | rfl) | ⟨tag, -, rfl⟩
  · exact hfield _
  · exact hfield _
  · exact hfield _
  · exact hpath _
  · exact hpath _
  · exact hfield _
  · exact hfield _

/-- The words the scan looks for the mount point among: the paths are its fourth and the ones after,
however many words each of them makes. -/
theorem Mount.words_fields (mount : Mount) : (words (spaced mount.fields))[4]? =
    ((runs breaks mount.root.text ++ runs breaks mount.point.text).map mangle ++
      mount.options.text :: mount.tags.map Field.text)[1]? := by
  have htags : (mount.tags.map Field.text).flatMap words = mount.tags.map Field.text := by
    rw [List.flatMap_map, List.map_eq_flatMap]
    exact List.flatMap_congr fun field _ ↦ field.words_text
  rw [words_spaced, Mount.fields, List.flatMap_append, htags]
  simp [Field.words_text, words_mangle]

/-- What the scan reads of a row, whatever the filesystem says of itself after its type. -/
theorem Mount.parse_row (mount : Mount) (rest : Text) :
    parseMount (spaced mount.fields ++ SEPARATOR ++ mount.fstype.text ++ ' ' :: rest) =
      (((runs breaks mount.root.text ++ runs breaks mount.point.text).map mangle ++
        mount.options.text :: mount.tags.map Field.text)[1]?).map fun word ↦
          (unescape (bytes word), mount.fstype.text) := by
  have hne : mount.fields ≠ [] := List.cons_ne_nil _ _
  have hsplit := splitOnceAt_spaced hne mount.fields_apart (mount.fstype.text ++ ' ' :: rest)
  have hspace : isWhitespace ' ' = true := by decide
  have hfstype : (words (mount.fstype.text ++ ' ' :: rest))[0]? = some mount.fstype.text := by
    have hbreak := runs_append hspace mount.fstype.text rest
    rw [words, hbreak, ← words, mount.fstype.words_text]
    rfl
  rw [List.append_assoc _ mount.fstype.text, parseMount, hsplit]
  simp only [Option.bind_eq_bind, Option.bind_some, mount.words_fields, hfstype]
  exact Option.map_eq_bind.symm

/-! ### When the scan names the mount point -/

/-- A path the scan can read: ASCII, with no white space but what the kernel escapes. -/
def Plain (path : Text) : Prop := ∀ c ∈ path, c.toNat < 128 ∧ breaks c = false

instance (path : Text) : Decidable (Plain path) := inferInstanceAs (Decidable (∀ c ∈ path, _))

/-- The scan can read where a mount is. Where white space the kernel leaves cuts the directory that is
mounted in two, the scan takes the second piece of that for the mount point. -/
def Mount.Legible (mount : Mount) : Prop :=
  match (runs breaks mount.root.text)[1]? with
  | none => Plain mount.point.text
  | some piece => misread piece = mount.point.text

instance (mount : Mount) : Decidable mount.Legible := by
  unfold Mount.Legible
  split <;> infer_instance

theorem AbsPath.head_unbroken {path : AbsPath} {c : Char} {rest : Text}
    (h : path.text = c :: rest) : breaks c = false := by
  have hhead := path.absolute
  rw [h, List.head?_cons, Option.some.injEq] at hhead
  rw [hhead]
  decide

/-- The first run of a path is read as the path exactly where the path is plain. -/
theorem AbsPath.read_first (path : AbsPath) : ∃ first more, runs breaks path.text = first :: more ∧
    (misread first = path.text ↔ Plain path.text) := by
  by_cases hwhole : ∀ c ∈ path.text, breaks c = false
  · have hne : path.text ≠ [] := by
      intro hnil
      have habsolute := path.absolute
      rw [hnil] at habsolute
      cases habsolute
    refine ⟨path.text, [], runs_of_unbroken hne hwhole, ?_⟩
    rw [misread_eq_self_iff]
    exact forall₂_congr fun c hc ↦ (and_iff_left (hwhole c hc)).symm
  · push Not at hwhole
    -- the path up to the first white space the kernel leaves
    obtain ⟨first, c, more, htext, hfirst, hc⟩ :=
      exists_first_break (show ∃ c ∈ path.text, breaks c = true by simpa using hwhole)
    have hne : first ≠ [] := by
      intro hnil
      rw [hnil, List.nil_append] at htext
      rw [path.head_unbroken htext] at hc
      cases hc
    refine ⟨first, runs breaks more, ?_, ?_⟩
    · rw [htext, runs_append hc, runs_of_unbroken hne hfirst]
      rfl
    · constructor
      · intro hread
        rw [htext] at hread
        rcases misread_eq_append hread with hascii | ⟨-, hrecurring⟩
        · rw [misread_of_ascii hascii] at hread
          have hlength := congrArg List.length hread
          rw [List.length_append, List.length_cons] at hlength
          omega
        · have hall : recurring.all (!breaks ·) = true := by decide
          have hplain : breaks c = false := by
            simpa using List.all_eq_true.mp hall c (hrecurring c List.mem_cons_self)
          rw [hplain] at hc
          cases hc
      · intro hplain
        have hbroken := (hplain c (htext ▸ List.mem_append_right _ List.mem_cons_self)).2
        rw [hbroken] at hc
        cases hc

/-- The row of a mount gives its mount point back exactly where the scan can read it. -/
theorem named_iff (mount : Mount) :
    parseMount mount.line = some (mount.point.text, mount.fstype.text) ↔ mount.Legible := by
  obtain ⟨root, pieces, hroot, -⟩ := mount.root.read_first
  obtain ⟨first, more, hpoint, hread⟩ := mount.point.read_first
  rw [Mount.line, mount.parse_row, Mount.Legible, hroot, hpoint]
  cases pieces with
  | nil => simpa [unescape_mangle] using hread
  | cons piece pieces => simp [unescape_mangle]

/-! ### The table -/

theorem Mount.line_unbroken (mount : Mount) : '\n' ∉ mount.line := by
  have hfield (field : Field) : '\n' ∉ field.text := fun hmem ↦
    absurd (field.word _ hmem) (by decide)
  have hpath (path : Text) : '\n' ∉ mangle path := not_mem_mangle (by decide) (by decide) path
  have hspaced : ∀ fields : List Text, (∀ field ∈ fields, '\n' ∉ field) → '\n' ∉ spaced fields := by
    intro fields hfields
    induction fields with
    | nil => exact List.not_mem_nil
    | cons field fields ih =>
      obtain ⟨hone, hmore⟩ := List.forall_mem_cons.mp hfields
      cases fields with
      | nil => exact hone
      | cons next fields => simp [spaced, hone, ih hmore]
  have hfields : '\n' ∉ spaced mount.fields := by
    apply hspaced
    intro field hmem
    simp only [Mount.fields, List.mem_append, List.mem_cons, List.not_mem_nil, or_false,
      List.mem_map] at hmem
    rcases hmem with (rfl | rfl | rfl | rfl | rfl | rfl) | ⟨tag, -, rfl⟩
    · exact hfield _
    · exact hfield _
    · exact hfield _
    · exact hpath _
    · exact hpath _
    · exact hfield _
    · exact hfield _
  simp [Mount.line, hfields, hfield, SEPARATOR, mount.rest_line]

/-- A row read as a line of the table is read as itself. -/
theorem Mount.parse_chomp (mount : Mount) :
    parseMount (chomp mount.line) = parseMount mount.line := by
  have hends : ∃ rest, chomp mount.line =
      spaced mount.fields ++ SEPARATOR ++ mount.fstype.text ++ ' ' :: rest := by
    unfold chomp
    split_ifs with hreturn
    · cases hrest : mount.rest with
      | nil => simp [Mount.line, hrest] at hreturn
      | cons c rest =>
        refine ⟨(c :: rest).dropLast, ?_⟩
        rw [Mount.line, hrest, List.dropLast_append_of_ne_nil (List.cons_ne_nil _ _)]
        rfl
    · exact ⟨mount.rest, rfl⟩
  obtain ⟨rest, hrest⟩ := hends
  rw [hrest, mount.parse_row, Mount.line, mount.parse_row]

/-- The table the scan uses names the directories the mounts are on exactly where it can read each of
them. -/
theorem rows_iff (table : List Mount) :
    rows (table.flatMap fun mount ↦ mount.line ++ ['\n']) =
        table.map (fun mount ↦ (mount.point.text, mount.fstype.text)) ↔
      ∀ mount ∈ table, mount.Legible := by
  have hlines : lines (table.flatMap fun mount ↦ mount.line ++ ['\n']) =
      table.map fun mount ↦ chomp mount.line := by
    have hwritten := lines_flatMap
      (List.forall_mem_map.mpr fun (mount : Mount) (_ : mount ∈ table) ↦ mount.line_unbroken)
    rwa [List.flatMap_map, List.map_map] at hwritten
  rw [rows, hlines, List.filterMap_map]
  have hrow (mount : Mount) : ∃ read, parseMount mount.line = some read := by
    obtain ⟨root, pieces, hroot, -⟩ := mount.root.read_first
    obtain ⟨first, more, hpoint, -⟩ := mount.point.read_first
    rw [Mount.line, mount.parse_row, hroot, hpoint]
    cases pieces <;> exact ⟨_, rfl⟩
  choose read hread using hrow
  have hreads : parseMount ∘ (fun mount ↦ chomp mount.line) = some ∘ read := by
    funext mount
    exact mount.parse_chomp.trans (hread mount)
  rw [hreads, List.filterMap_eq_map, List.map_inj_left]
  refine forall₂_congr fun mount _ ↦ ?_
  rw [← named_iff, hread, Option.some.injEq]

/-- A disk mounted on `/media/josé`. -/
private def camera : Mount :=
  let field (text : Text) (h : text ≠ [] ∧ text.all (isWhitespace · = false) = true ∧ text ≠ ['-']) :
      Field := ⟨text, h.1, Text.forall_of_all h.2.1, h.2.2⟩
  { id := field "36".toList (by decide)
    parent := field "25".toList (by decide)
    device := field "8:17".toList (by decide)
    root := ⟨['/'], rfl⟩
    point := ⟨"/media/josé".toList, rfl⟩
    options := field "rw,noatime".toList (by decide)
    tags := [field "shared:1".toList (by decide)]
    fstype := field "ext4".toList (by decide)
    rest := "/dev/sdb1 rw".toList
    rest_line := by decide }

/-- The scan takes it to be mounted on another directory. -/
theorem another_directory_named :
    ¬ ∀ mount : Mount, (parseMount mount.line).map Prod.fst = some mount.point.text := by
  intro hall
  have hcamera := hall camera
  revert hcamera
  decide +kernel

end Nodal.Doctor.Mounts
