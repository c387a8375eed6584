import Mathlib.Algebra.GroupWithZero.Nat
import Mathlib.Data.List.DropRight
import Mathlib.Data.List.Infix
import Mathlib.Tactic.Common

/-!
# Text, as the list of its characters

The operations on text that programs share: what is white space, trimming, splitting at the first of a
character, the lines of a text, and replacing each occurrence of a pattern. A text whose parts hold no
separator is split into its parts again (`splitOnce_append`, `lines_append`).
-/

set_option autoImplicit false

namespace Nodal.Foundation

/-- A text, as the list of its characters. -/
abbrev Text := List Char

instance lawfulBEq_text : LawfulBEq Text :=
  inferInstance

namespace Text

/-- What a check of every character of a text says. -/
theorem forall_of_all {p : Char → Prop} [DecidablePred p] {text : Text}
    (h : text.all (p ·) = true) (c : Char) (hc : c ∈ text) : p c :=
  of_decide_eq_true (List.all_eq_true.mp h c hc)

theorem isUpper_iff {c : Char} : c.isUpper = true ↔ 65 ≤ c.toNat ∧ c.toNat ≤ 90 := by
  have hupper : c.isUpper = decide ('A'.val ≤ c.val ∧ c.val ≤ 'Z'.val) := rfl
  rw [hupper, decide_eq_true_eq, UInt32.le_iff_toNat_le, UInt32.le_iff_toNat_le]
  exact Iff.rfl

theorem isLower_iff {c : Char} : c.isLower = true ↔ 97 ≤ c.toNat ∧ c.toNat ≤ 122 := by
  have hlower : c.isLower = (decide (c.val ≥ 'a'.val) && decide (c.val ≤ 'z'.val)) := rfl
  rw [hlower, Bool.and_eq_true, decide_eq_true_eq, decide_eq_true_eq, ge_iff_le,
    UInt32.le_iff_toNat_le, UInt32.le_iff_toNat_le]
  exact Iff.rfl

theorem isDigit_iff {c : Char} : c.isDigit = true ↔ 48 ≤ c.toNat ∧ c.toNat ≤ 57 := by
  have hdigit : c.isDigit = (decide (c.val ≥ '0'.val) && decide (c.val ≤ '9'.val)) := rfl
  rw [hdigit, Bool.and_eq_true, decide_eq_true_eq, decide_eq_true_eq, ge_iff_le,
    UInt32.le_iff_toNat_le, UInt32.le_iff_toNat_le]
  exact Iff.rfl

theorem isAlphanum_iff {c : Char} :
    c.isAlphanum = true ↔ c.isUpper = true ∨ c.isLower = true ∨ c.isDigit = true := by
  have halphanum : c.isAlphanum = ((c.isUpper || c.isLower) || c.isDigit) := rfl
  rw [halphanum, Bool.or_eq_true, Bool.or_eq_true, or_assoc]

/-- A character that is no letter is the lower case of itself alone. -/
theorem toLower_eq_iff {c d : Char} (hd : d.isAlpha = false) : c.toLower = d ↔ c = d := by
  obtain ⟨hupper, hlower⟩ := Bool.or_eq_false_iff.mp hd
  rw [← Bool.not_eq_true, isUpper_iff] at hupper
  rw [← Bool.not_eq_true, isLower_iff] at hlower
  unfold Char.toLower
  split_ifs with hc
  · rw [ge_iff_le, UInt32.le_iff_toNat_le, UInt32.le_iff_toNat_le] at hc
    have hle : 65 ≤ c.toNat ∧ c.toNat ≤ 90 := hc
    refine iff_of_false ?_ ?_
    · rintro rfl
      apply hlower
      show 97 ≤ (c.val + 32).toNat ∧ (c.val + 32).toNat ≤ 122
      rw [UInt32.toNat_add]
      have hval : c.val.toNat = c.toNat := rfl
      have hgap : (32 : UInt32).toNat = 32 := rfl
      omega
    · rintro rfl
      exact hupper hle
  · exact Iff.rfl

/-! ### Trimming -/

/-- Whether a character is white space. -/
def isWhitespace (c : Char) : Bool :=
  let n := c.toNat
  (9 ≤ n ∧ n ≤ 13) ∨ n = 0x20 ∨ n = 0x85 ∨ n = 0xA0 ∨ n = 0x1680 ∨ (0x2000 ≤ n ∧ n ≤ 0x200A) ∨
    n = 0x2028 ∨ n = 0x2029 ∨ n = 0x202F ∨ n = 0x205F ∨ n = 0x3000

def trimStart (text : Text) : Text := text.dropWhile isWhitespace

def trimEnd (text : Text) : Text := text.rdropWhile isWhitespace

def trim (text : Text) : Text := (trimStart text).rdropWhile isWhitespace

theorem trim_eq_self {text : Text} (h : ∀ c ∈ text, isWhitespace c = false) : trim text = text := by
  have hstart : trimStart text = text := by
    cases text with
    | nil => rfl
    | cons c rest => simp [trimStart, h c List.mem_cons_self]
  rw [trim, hstart]
  refine List.rdropWhile_eq_self_iff.mpr fun hne ↦ ?_
  simp [h _ (List.getLast_mem hne)]

theorem trimStart_eq_self_iff {text : Text} :
    trimStart text = text ↔ ∀ c ∈ text.head?, isWhitespace c = false := by
  cases text with
  | nil => simp [trimStart]
  | cons c rest =>
    cases hc : isWhitespace c with
    | false => simp [trimStart, hc]
    | true =>
      have hshorter : trimStart (c :: rest) ≠ c :: rest := by
        intro h
        have hlength := congrArg List.length h
        have hle := (List.dropWhile_suffix isWhitespace (l := rest)).length_le
        simp only [trimStart, List.dropWhile_cons, hc, if_true, List.length_cons] at hlength
        omega
      simp [hshorter, hc]

/-! ### Splitting -/

/-- The text before the first of a character, and the text after it. -/
def splitOnce (at' : Char) : Text → Option (Text × Text)
  | [] => none
  | c :: rest =>
    if c = at' then some ([], rest)
    else (splitOnce at' rest).map fun (before, after) ↦ (c :: before, after)

theorem splitOnce_append {c : Char} {before after : Text} (h : c ∉ before) :
    splitOnce c (before ++ c :: after) = some (before, after) := by
  induction before with
  | nil => simp [splitOnce]
  | cons first rest ih =>
    obtain ⟨hne, hrest⟩ := not_or.mp (List.mem_cons.not.mp h)
    simp [splitOnce, Ne.symm hne, ih hrest]

/-- The parts of a text between the occurrences of a character. -/
def split (at' : Char) : Text → List Text
  | [] => [[]]
  | c :: rest =>
    if c = at' then [] :: split at' rest
    else match split at' rest with
      | [] => [[c]]
      | part :: parts => (c :: part) :: parts

/-- The parts of a text between the characters that cut it. -/
def splitWhere (cut : Char → Bool) : Text → List Text
  | [] => [[]]
  | c :: rest =>
    if cut c then [] :: splitWhere cut rest
    else match splitWhere cut rest with
      | [] => [[c]]
      | part :: parts => (c :: part) :: parts

theorem not_cut_of_mem_splitWhere {cut : Char → Bool} {text part : Text}
    (h : part ∈ splitWhere cut text) : ∀ c ∈ part, cut c = false := by
  induction text generalizing part with
  | nil =>
    rw [splitWhere, List.mem_singleton] at h
    rw [h]
    exact List.forall_mem_nil _
  | cons first rest ih =>
    rw [splitWhere] at h
    split_ifs at h with hcut
    · rcases List.mem_cons.mp h with rfl | hlater
      · exact List.forall_mem_nil _
      · exact ih hlater
    · have hfirst : cut first = false := by simpa using hcut
      cases hrest : splitWhere cut rest with
      | nil =>
        rw [hrest, List.mem_singleton] at h
        rw [h]
        exact List.forall_mem_singleton.mpr hfirst
      | cons next parts =>
        rw [hrest] at h
        rcases List.mem_cons.mp h with rfl | hlater
        · exact List.forall_mem_cons.mpr ⟨hfirst, ih (hrest ▸ List.mem_cons_self)⟩
        · exact ih (hrest ▸ List.mem_cons_of_mem _ hlater)

theorem split_eq_self {c : Char} {text : Text} (h : c ∉ text) : split c text = [text] := by
  induction text with
  | nil => rfl
  | cons first rest ih =>
    obtain ⟨hne, hrest⟩ := not_or.mp (List.mem_cons.not.mp h)
    simp [split, Ne.symm hne, ih hrest]

theorem split_ne_nil {c : Char} {text : Text} : split c text ≠ [] := by
  cases text with
  | nil => exact List.cons_ne_nil _ _
  | cons first rest =>
    unfold split
    split_ifs
    · exact List.cons_ne_nil _ _
    · split <;> exact List.cons_ne_nil _ _

theorem split_cons_of_ne {c first : Char} {rest : Text} (h : first ≠ c) :
    ∃ part parts, split c (first :: rest) = (first :: part) :: parts := by
  obtain ⟨part, parts, hrest⟩ := List.exists_cons_of_ne_nil (@split_ne_nil c rest)
  exact ⟨part, parts, by simp [split, h, hrest]⟩

theorem split_append {c : Char} {before after : Text} (h : c ∉ before) :
    split c (before ++ c :: after) = before :: split c after := by
  induction before with
  | nil => simp [split]
  | cons first rest ih =>
    obtain ⟨hne, hrest⟩ := not_or.mp (List.mem_cons.not.mp h)
    simp [split, Ne.symm hne, ih hrest]

/-- A text is its parts, each but the first with the character before it. -/
theorem split_eq_cons_iff {c : Char} {text before : Text} {parts : List Text} :
    split c text = before :: parts ↔
      (∀ part ∈ before :: parts, c ∉ part) ∧ text = before ++ parts.flatMap (c :: ·) := by
  constructor
  · intro h
    induction text generalizing before parts with
    | nil =>
      cases h
      exact ⟨List.forall_mem_singleton.mpr List.not_mem_nil, rfl⟩
    | cons first rest ih =>
      obtain ⟨part, later, hrest⟩ := List.exists_cons_of_ne_nil (@split_ne_nil c rest)
      obtain ⟨hnot, htext⟩ := ih hrest
      rw [split, hrest] at h
      split_ifs at h with hfirst
      · cases h
        rw [hfirst, htext]
        exact ⟨List.forall_mem_cons.mpr ⟨List.not_mem_nil, hnot⟩, rfl⟩
      · cases h
        obtain ⟨hpart, hlater⟩ := List.forall_mem_cons.mp hnot
        rw [htext]
        refine ⟨List.forall_mem_cons.mpr ⟨?_, hlater⟩, rfl⟩
        exact List.mem_cons.not.mpr (not_or.mpr ⟨Ne.symm hfirst, hpart⟩)
  · rintro ⟨hnot, rfl⟩
    induction parts generalizing before with
    | nil =>
      rw [List.flatMap_nil, List.append_nil]
      exact split_eq_self (hnot before List.mem_cons_self)
    | cons part parts ih =>
      obtain ⟨hbefore, hparts⟩ := List.forall_mem_cons.mp hnot
      rw [List.flatMap_cons, List.cons_append, split_append hbefore, ih hparts]

/-- The parts of a text, so many of them at most and the last one whole. -/
def splitN (at' : Char) : ℕ → Text → List Text
  | 0, _ => []
  | 1, text => [text]
  | count + 2, text => match splitOnce at' text with
    | some (before, after) => before :: splitN at' (count + 1) after
    | none => [text]

/-- Fields, each with the character after it. -/
def joined (c : Char) (fields : List Text) : Text := fields.flatMap (· ++ [c])

/-- Fields without the separator are split into themselves. -/
theorem splitN_joined {c : Char} {fields : List Text} (h : ∀ field ∈ fields, c ∉ field)
    (rest : Text) : splitN c (fields.length + 1) (joined c fields ++ rest) = fields ++ [rest] := by
  induction fields with
  | nil => rfl
  | cons field fields ih =>
    obtain ⟨hfield, hfields⟩ := List.forall_mem_cons.mp h
    have htext : joined c (field :: fields) ++ rest = field ++ c :: (joined c fields ++ rest) := by
      simp [joined]
    rw [htext, List.length_cons, splitN, splitOnce_append hfield]
    exact congrArg _ (ih hfields)

/-- Fields that each have the separator after them are split into themselves and nothing more. -/
theorem split_joined {c : Char} {fields : List Text} (h : ∀ field ∈ fields, c ∉ field) :
    split c (joined c fields) = fields ++ [[]] := by
  induction fields with
  | nil => rfl
  | cons field fields ih =>
    obtain ⟨hfield, hfields⟩ := List.forall_mem_cons.mp h
    have htext : joined c (field :: fields) = field ++ c :: joined c fields := by
      simp [joined]
    rw [htext, split_append hfield, ih hfields, List.cons_append]

/-- Fields joined by a separator none of them holds are split into themselves. -/
theorem split_intercalate {c : Char} {fields : List Text} (hne : fields ≠ [])
    (h : ∀ field ∈ fields, c ∉ field) : split c (List.intercalate [c] fields) = fields := by
  induction fields with
  | nil => exact absurd rfl hne
  | cons field fields ih =>
    obtain ⟨hfield, hfields⟩ := List.forall_mem_cons.mp h
    cases fields with
    | nil => simpa [List.intercalate] using split_eq_self hfield
    | cons next fields =>
      have htext : List.intercalate [c] (field :: next :: fields) =
          field ++ c :: List.intercalate [c] (next :: fields) := by
        simp [List.intercalate]
      rw [htext, split_append hfield, ih (List.cons_ne_nil _ _) hfields]

/-- The runs of characters a rule does not break at, from the characters read of the current one. -/
def runsFrom (breaks : Char → Bool) : Text → Text → List Text
  | current, [] => if current = [] then [] else [current]
  | current, c :: rest =>
    if breaks c then (if current = [] then [] else [current]) ++ runsFrom breaks [] rest
    else runsFrom breaks (current ++ [c]) rest

/-- The runs of characters a rule does not break at. -/
def runs (breaks : Char → Bool) (text : Text) : List Text := runsFrom breaks [] text

/-- The words of a text: its runs between white space. -/
def words (text : Text) : List Text := runs isWhitespace text

theorem runsFrom_append {breaks : Char → Bool} {c : Char} (h : breaks c = true)
    (current before after : Text) : runsFrom breaks current (before ++ c :: after) =
      runsFrom breaks current before ++ runs breaks after := by
  induction before generalizing current with
  | nil => simp [runsFrom, runs, h]
  | cons first before ih =>
    rw [List.cons_append, runsFrom, runsFrom]
    split_ifs with hbreaks
    · rw [ih, List.append_assoc]
    · rw [ih, List.append_assoc]
    · exact ih _

/-- A break parts the runs before it from the runs after it. -/
theorem runs_append {breaks : Char → Bool} {c : Char} (h : breaks c = true)
    (before after : Text) :
    runs breaks (before ++ c :: after) = runs breaks before ++ runs breaks after :=
  runsFrom_append h [] before after

theorem runsFrom_unbroken_append {breaks : Char → Bool} {text : Text}
    (h : ∀ c ∈ text, breaks c = false) (current rest : Text) :
    runsFrom breaks current (text ++ rest) = runsFrom breaks (current ++ text) rest := by
  induction text generalizing current with
  | nil => simp
  | cons c text ih =>
    obtain ⟨hc, htext⟩ := List.forall_mem_cons.mp h
    simp [runsFrom, hc, ih htext]

/-- A text that is not broken is one run. -/
theorem runs_of_unbroken {breaks : Char → Bool} {text : Text} (hne : text ≠ [])
    (h : ∀ c ∈ text, breaks c = false) : runs breaks text = [text] := by
  have hwhole := runsFrom_unbroken_append h [] []
  rwa [List.append_nil, List.nil_append, runsFrom, if_neg hne] at hwhole

/-- A text that is broken anywhere has a first break. -/
theorem exists_first_break {breaks : Char → Bool} {text : Text}
    (h : ∃ c ∈ text, breaks c = true) : ∃ before c after, text = before ++ c :: after ∧
      (∀ d ∈ before, breaks d = false) ∧ breaks c = true := by
  induction text with
  | nil =>
    obtain ⟨c, hc, -⟩ := h
    exact absurd hc List.not_mem_nil
  | cons first text ih =>
    cases hfirst : breaks first with
    | true => exact ⟨[], first, text, rfl, List.forall_mem_nil _, hfirst⟩
    | false =>
      obtain ⟨c, hc, hbreaks⟩ := h
      have hmem : c ∈ text := by
        refine (List.mem_cons.mp hc).resolve_left ?_
        intro heq
        rw [heq, hfirst] at hbreaks
        cases hbreaks
      obtain ⟨before, d, after, rfl, hbefore, hd⟩ := ih ⟨c, hmem, hbreaks⟩
      exact ⟨first :: before, d, after, rfl, List.forall_mem_cons.mpr ⟨hfirst, hbefore⟩, hd⟩

/-- The text before the first occurrence of a pattern, and the text after it. -/
def splitOnceAt (pattern : Text) : Text → Option (Text × Text)
  | [] => if pattern = [] then some ([], []) else none
  | c :: rest =>
    if pattern.isPrefixOf (c :: rest) then some ([], (c :: rest).drop pattern.length)
    else (splitOnceAt pattern rest).map fun (before, after) ↦ (c :: before, after)

/-- A pattern is not found inside a text without its first character. -/
theorem splitOnceAt_append {p : Char} {pattern before : Text} (h : p ∉ before) (after : Text) :
    splitOnceAt (p :: pattern) (before ++ after) =
      (splitOnceAt (p :: pattern) after).map fun found ↦ (before ++ found.1, found.2) := by
  induction before with
  | nil => simp
  | cons c before ih =>
    obtain ⟨hne, hbefore⟩ := not_or.mp (List.mem_cons.not.mp h)
    rw [List.cons_append, splitOnceAt, if_neg (by simp [hne]), ih hbefore, Option.map_map]
    rfl

/-- A line less the carriage return that ends it. -/
def chomp (line : Text) : Text :=
  if line.getLast? = some '\r' then line.dropLast else line

/-- The lines of a text, from the characters read of the current one. -/
def linesFrom : Text → Text → List Text
  | current, [] => if current = [] then [] else [current]
  | current, c :: rest =>
    if c = '\n' then chomp current :: linesFrom [] rest else linesFrom (current ++ [c]) rest

/-- The lines of a text, each without its ending. -/
def lines (text : Text) : List Text := linesFrom [] text

theorem linesFrom_append {line rest : Text} (h : '\n' ∉ line) (current : Text) :
    linesFrom current (line ++ '\n' :: rest) = chomp (current ++ line) :: lines rest := by
  induction line generalizing current with
  | nil => simp [linesFrom, lines]
  | cons c line ih =>
    obtain ⟨hne, hline⟩ := not_or.mp (List.mem_cons.not.mp h)
    simp [linesFrom, Ne.symm hne, ih hline]

theorem lines_append {line rest : Text} (h : '\n' ∉ line) :
    lines (line ++ '\n' :: rest) = chomp line :: lines rest := by
  simpa [lines] using linesFrom_append h []

/-- The lines of lines that were ended one by one. -/
theorem lines_flatMap {written : List Text} (h : ∀ line ∈ written, '\n' ∉ line) :
    lines (written.flatMap (· ++ ['\n'])) = written.map chomp := by
  induction written with
  | nil => rfl
  | cons line rest ih =>
    obtain ⟨hline, hrest⟩ := List.forall_mem_cons.mp h
    rw [List.flatMap_cons, List.append_assoc, List.singleton_append, lines_append hline, ih hrest,
      List.map_cons]

theorem chomp_eq_self {line : Text} (h : line.getLast? ≠ some '\r') : chomp line = line := if_neg h

/-- What stands before the first of some character, and after it, are fixed by the text. -/
theorem append_cons_inj {c : Char} {front front' rest rest' : Text} (hfront : c ∉ front)
    (hfront' : c ∉ front') (h : front ++ c :: rest = front' ++ c :: rest') :
    front = front' ∧ rest = rest' := by
  induction front generalizing front' with
  | nil =>
    cases front' with
    | nil => exact ⟨rfl, (List.cons.inj h).2⟩
    | cons first front' => exact absurd ((List.cons.inj h).1 ▸ List.mem_cons_self) hfront'
  | cons first front ih =>
    cases front' with
    | nil => exact absurd ((List.cons.inj h).1 ▸ List.mem_cons_self) hfront
    | cons first' front' =>
      obtain ⟨rfl, htail⟩ := List.cons.inj h
      obtain ⟨rfl, hrest⟩ := ih (List.not_mem_of_not_mem_cons hfront)
        (List.not_mem_of_not_mem_cons hfront') htail
      exact ⟨rfl, hrest⟩

/-! ### Numbers -/

/-- A number, in decimal. -/
def decimal (n : ℕ) : Text := Nat.toDigits 10 n

/-- The number a text of digits spells, after a number already read. -/
def readDigits : ℕ → Text → Option ℕ
  | n, [] => some n
  | n, c :: rest => if c.isDigit then readDigits (10 * n + (c.toNat - 48)) rest else none

/-- Read a 32-bit number: digits, after a sign or none. -/
def parseU32 (text : Text) : Option ℕ :=
  let digits := match text with
    | '+' :: rest => rest
    | _ => text
  if digits = [] then none else (readDigits 0 digits).filter (· < 2 ^ 32)

theorem readDigits_append (n : ℕ) (text more : Text) :
    readDigits n (text ++ more) = (readDigits n text).bind (readDigits · more) := by
  induction text generalizing n with
  | nil => rfl
  | cons c rest ih =>
    rw [List.cons_append, readDigits, readDigits]
    split
    · exact ih _
    · rfl

theorem readDigits_decimal (n : ℕ) : readDigits 0 (decimal n) = some n := by
  induction n using Nat.strong_induction_on with
  | _ n ih =>
    have hdigit : ∀ d < 10, d.digitChar.isDigit = true ∧ d.digitChar.toNat - 48 = d := by decide
    unfold decimal
    rw [Nat.toDigits_eq_if (by decide)]
    split
    · next hn =>
      obtain ⟨hchar, hvalue⟩ := hdigit n hn
      simp [readDigits, hchar, hvalue]
    · next hn =>
      obtain ⟨hchar, hvalue⟩ := hdigit (n % 10) (Nat.mod_lt _ (by decide))
      have hless : n / 10 < n := by omega
      have hread := ih (n / 10) hless
      unfold decimal at hread
      rw [readDigits_append, hread]
      simp only [Option.bind_some, readDigits, hchar, hvalue, if_true, Option.some.injEq]
      omega

theorem decimal_inj {m n : ℕ} (h : decimal m = decimal n) : m = n := by
  have hread := readDigits_decimal m
  rw [h, readDigits_decimal] at hread
  exact (Option.some.inj hread).symm

theorem isDigit_of_mem_decimal {c : Char} {n : ℕ} (h : c ∈ decimal n) : c.isDigit = true :=
  Nat.isDigit_of_mem_toDigits (by decide) (by decide) h

theorem decimal_ne_nil (n : ℕ) : decimal n ≠ [] := by
  intro h
  have hread := readDigits_decimal n
  rw [h] at hread
  obtain rfl : 0 = n := Option.some.inj hread
  exact absurd h (by decide)

/-- A number is read back where it fits. -/
theorem parseU32_decimal (n : ℕ) :
    parseU32 (decimal n) = if n < 2 ^ 32 then some n else none := by
  have hsign : ∀ rest, decimal n ≠ '+' :: rest := by
    intro rest h
    have hplus := isDigit_of_mem_decimal (h ▸ List.mem_cons_self (a := '+'))
    exact absurd hplus (by decide)
  simp only [parseU32, if_neg (decimal_ne_nil n), readDigits_decimal, Option.filter_some,
    decide_eq_true_eq]

/-! ### Replacing -/

/-- Replace each occurrence of a pattern, after so many characters of one that was replaced. -/
def replaceFrom (pattern value : Text) : ℕ → Text → Text
  | _, [] => []
  | skip + 1, _ :: rest => replaceFrom pattern value skip rest
  | 0, c :: rest =>
    if pattern <+: c :: rest then value ++ replaceFrom pattern value (pattern.length - 1) rest
    else c :: replaceFrom pattern value 0 rest

/-- Replace each occurrence of a pattern, from the left and none inside another. -/
def replace (pattern value text : Text) : Text := replaceFrom pattern value 0 text

/-- Each occurrence of a character is replaced on its own. -/
theorem replace_singleton (c : Char) (value text : Text) :
    replace [c] value text = text.flatMap fun d ↦ if d = c then value else [d] := by
  induction text with
  | nil => rfl
  | cons d text ih =>
    rw [replace, replaceFrom, List.flatMap_cons, ← ih]
    by_cases hsame : d = c
    · simp [hsame, replace]
    · simp [hsame, Ne.symm hsame, replace]

end Text

end Nodal.Foundation
