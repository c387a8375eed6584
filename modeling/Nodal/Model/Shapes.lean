import Nodal.Foundation.Regex
import Nodal.Foundation.Utf8
import Nodal.Git.Remote
import Nodal.Model.Scalar

/-!
# Each shape accepts what its pattern says

`model/scalar.rs`: a shape is written twice, as the regular expression that is published and as a function
over bytes and characters. The two say the same of every text (`shapes_agree`). The functions over bytes look
at ASCII only, and a character that is not ASCII has no ASCII byte, so they may be read over characters
(`allBytes_iff`).
-/

set_option autoImplicit false

namespace Nodal.Model.Shapes

open Foundation Foundation.Text
open Git.Remote (rsplitOnce rsplitOnce_append rsplitOnce_eq_some)

/-! ### The functions -/

/-- One scalar's rule: the published expression, the longest value allowed, and the rule as code. -/
structure Shape where
  name : String
  pattern : String
  maxLen : ℕ
  structured : Text → Bool

/-- `Shape::accepts`. -/
def Shape.accepts (shape : Shape) (value : Text) : Bool :=
  Model.accepts shape.maxLen shape.structured value

def isAsciiDigit (byte : ℕ) : Bool := 0x30 ≤ byte && byte ≤ 0x39

def isAsciiUppercase (byte : ℕ) : Bool := 0x41 ≤ byte && byte ≤ 0x5A

def isAsciiLowercase (byte : ℕ) : Bool := 0x61 ≤ byte && byte ≤ 0x7A

def isAsciiAlphanumeric (byte : ℕ) : Bool :=
  isAsciiDigit byte || isAsciiUppercase byte || isAsciiLowercase byte

/-- A test of every byte. -/
def allBytes (test : ℕ → Bool) (value : Text) : Bool := (bytes value).all fun byte ↦ test byte.toNat

/-- A test of the first byte. -/
def firstByte (test : ℕ → Bool) (value : Text) : Bool :=
  (bytes value).head?.any fun byte ↦ test byte.toNat

/-- Crockford base-32 without `I`, `L`, `O` and `U`. -/
def isCrockfordUpper (byte : ℕ) : Bool :=
  isAsciiDigit byte ||
    isAsciiUppercase byte && !(byte = 0x49 || byte = 0x4C || byte = 0x4F || byte = 0x55)

def isCanonicalUlid (value : Text) : Bool :=
  (bytes value).length = 26 && firstByte (fun byte ↦ 0x30 ≤ byte && byte ≤ 0x37) value &&
    allBytes isCrockfordUpper value

def isHexDigest : Text → Bool :=
  allBytes fun byte ↦ isAsciiDigit byte || (0x61 ≤ byte && byte ≤ 0x66)

def isObjectId (value : Text) : Bool :=
  ((bytes value).length = 40 || (bytes value).length = 64) && isHexDigest value

def isSlug (value : Text) : Bool :=
  value.head? ≠ some '-' && value.getLast? ≠ some '-' && !decide ("--".toList <:+: value) &&
    allBytes (fun byte ↦ isAsciiLowercase byte || isAsciiDigit byte || byte = 0x2D) value

/-- A name in one case: a letter or an underscore, and then letters, digits and underscores. -/
def isIdentifier (isLetter : ℕ → Bool) (value : Text) : Bool :=
  firstByte (fun byte ↦ isLetter byte || byte = 0x5F) value &&
    (bytes value).tail.all fun byte ↦
      isLetter byte.toNat || isAsciiDigit byte.toNat || byte.toNat = 0x5F

def isSqlIdentifier : Text → Bool := isIdentifier isAsciiLowercase

def isEnvName : Text → Bool := isIdentifier isAsciiUppercase

def FORBIDDEN : List Char := ['~', '^', ':', '?', '*', '[', '\\']

def isBranchName (value : Text) : Bool :=
  !value.head?.any (['-', '/'].contains ·) && !value.getLast?.any (['/', '.'].contains ·) &&
    !decide ("..".toList <:+: value) && !decide ("//".toList <:+: value) &&
    !decide ("@\x7b".toList <:+: value) &&
    (rsplitOnce '.' value).map Prod.snd ≠ some "lock".toList &&
    !value.any fun c ↦ isWhitespace c || isControl c || FORBIDDEN.contains c

def isToken : Text → Bool := allBytes fun byte ↦ 0x21 ≤ byte && byte ≤ 0x7E

/-- A group of one to nine digits. -/
def isNumber (group : Text) : Bool :=
  1 ≤ (bytes group).length && (bytes group).length ≤ 9 && allBytes isAsciiDigit group

/-- What begins a pre-release or a build. -/
def isSign (c : Char) : Bool := ['-', '+'].contains c

def isVersion (value : Text) : Bool :=
  let head := value.takeWhile (!isSign ·)
  let tail := value.dropWhile (!isSign ·)
  let numbers := split '.' head
  1 ≤ numbers.length && numbers.length ≤ 4 && numbers.all isNumber &&
    (tail = [] || 1 < (bytes tail).length &&
      (bytes tail).tail.all fun byte ↦
        isAsciiAlphanumeric byte.toNat || byte.toNat = 0x2E || byte.toNat = 0x2D)

def isLine (value : Text) : Bool := !value.any isControl

/-! ### The shapes -/

def ULID : Shape := ⟨"ulid", "^[0-7][0-9A-HJKMNP-TV-Z]\x7b25\x7d$", 26, isCanonicalUlid⟩

def DIGEST : Shape := ⟨"digest", "^[0-9a-f]+$", 128, isHexDigest⟩

def OBJECT_ID : Shape := ⟨"object id", "^([0-9a-f]\x7b40\x7d|[0-9a-f]\x7b64\x7d)$", 64, isObjectId⟩

def SLUG : Shape := ⟨"slug", "^[a-z0-9]+(-[a-z0-9]+)*$", 64, isSlug⟩

def SQL_IDENTIFIER : Shape := ⟨"sql identifier", "^[a-z_][a-z0-9_]*$", 63, isSqlIdentifier⟩

def BRANCH : Shape :=
  ⟨"branch name", "^(?![-/])(?!.*(?:\\.\\.|//|@\\\x7b))(?!.*[/.]$)(?!.*\\.lock$)" ++
    "[^\\s~^:?*\\[\\\\\\x00-\\x1F\\x7F-\\x9F]+$", 255, isBranchName⟩

def ENV_NAME : Shape := ⟨"environment variable name", "^[A-Z_][A-Z0-9_]*$", 255, isEnvName⟩

def TOKEN : Shape := ⟨"token", "^[\\x21-\\x7E]+$", 255, isToken⟩

def VERSION : Shape :=
  ⟨"version", "^[0-9]\x7b1,9\x7d(\\.[0-9]\x7b1,9\x7d)\x7b0,3\x7d([-+][0-9A-Za-z.-]+)?$", 64, isVersion⟩

def LINE : Shape := ⟨"line", "^[^\\x00-\\x1F\\x7F-\\x9F]+$", 255, isLine⟩

/-- Every shape. -/
def SHAPES : List Shape :=
  [ULID, DIGEST, OBJECT_ID, SLUG, SQL_IDENTIFIER, ENV_NAME, BRANCH, TOKEN, LINE, VERSION]

/-! ### Bytes and characters -/

variable {value : Text} {c : Char} {p : ℕ → Bool}

theorem bytes_ascii_cons {text : Text} (h : c.toNat < 128) :
    bytes (c :: text) = UInt8.ofNat c.toNat :: bytes text := by
  rw [bytes_cons, bytes_of_ascii h, List.singleton_append]

theorem toNat_ofNat_ascii {n : ℕ} (h : n < 128) : (UInt8.ofNat n).toNat = n := by
  rw [UInt8.toNat_ofNat', Nat.mod_eq_of_lt (by omega)]

/-- A test of the first byte is a test of the first character. Assumes: it passes ASCII only. -/
theorem firstByte_cons (hp : ∀ n, p n = true → n < 128) (c : Char) (text : Text) :
    firstByte p (c :: text) = p c.toNat := by
  rw [firstByte]
  by_cases hc : c.toNat < 128
  · rw [bytes_ascii_cons hc, List.head?_cons, Option.any_some, toNat_ofNat_ascii hc]
  · obtain ⟨hlength, hhigh⟩ := bytes_of_not_ascii (Nat.not_lt.mp hc)
    cases hbytes : bytes [c] with
    | nil => simp [hbytes] at hlength
    | cons byte rest =>
      have hbyte : 128 ≤ byte.toNat := hhigh byte (by rw [hbytes]; exact List.mem_cons_self)
      rw [bytes_cons, hbytes, List.cons_append, List.head?_cons, Option.any_some,
        eq_false_of_ne_true fun h ↦ absurd (hp _ h) (by omega),
        eq_false_of_ne_true fun h ↦ hc (hp _ h)]

/-- A test of every byte is a test of every character. Assumes: it passes ASCII only. -/
theorem allBytes_iff (hp : ∀ n, p n = true → n < 128) :
    allBytes p value = true ↔ ∀ c ∈ value, p c.toNat = true := by
  induction value with
  | nil => exact iff_of_true rfl (List.forall_mem_nil _)
  | cons c text ih =>
    rw [List.forall_mem_cons]
    by_cases hc : c.toNat < 128
    · rw [allBytes, bytes_ascii_cons hc, List.all_cons, Bool.and_eq_true, toNat_ofNat_ascii hc, ← ih]
      rfl
    · have hfirst := firstByte_cons hp c text
      have hnot : p c.toNat = false := eq_false_of_ne_true fun h ↦ hc (hp _ h)
      rw [hnot] at hfirst ⊢
      refine iff_of_false (fun h ↦ ?_) (fun h ↦ Bool.false_ne_true h.1)
      rw [allBytes] at h
      rw [firstByte] at hfirst
      cases hbytes : bytes (c :: text) with
      | nil =>
        have hlength := (bytes_of_not_ascii (Nat.not_lt.mp hc)).1
        rw [bytes_cons, List.append_eq_nil_iff] at hbytes
        simp [hbytes.1] at hlength
      | cons byte rest =>
        rw [hbytes, List.head?_cons, Option.any_some] at hfirst
        rw [hbytes, List.all_cons, hfirst, Bool.false_and] at h
        cases h

/-- A text of ASCII has a byte for each of its characters. -/
theorem length_bytes_of_all (hp : ∀ n, p n = true → n < 128) (h : ∀ c ∈ value, p c.toNat = true) :
    (bytes value).length = value.length :=
  length_bytes_of_ascii fun c hc ↦ hp _ (h c hc)

/-! ### The two rules of a shape -/

/-- The text of a shape's pattern is one, and the shape accepts what is no longer than its cap and the
pattern matches. -/
def Agrees (shape : Shape) : Prop :=
  ∃ pattern, Regex.parse shape.pattern.toList = some pattern ∧ ∀ value : Text,
    shape.accepts value = true ↔ value.length ≤ shape.maxLen ∧ Regex.Matches pattern value

open Regex (CharClass Item Pattern inTurn literal plain wordsInTurn mem_iterate_one mem_iterate_set
  mem_iterate_led mem_set_iterate mem_wordsInTurn_cons mem_wordsInTurn_literal wordsInTurn_singleton
  words_inTurn wordsInTurn_append mem_optional has_listed has_others)

/-- Assumes: the pattern is one between the two anchors, and a text that is not empty has the structure
when it is a word of it. -/
theorem agrees_of {shape : Shape} (pieces : List Pattern) (hplain : pieces.all plain = true)
    (hparse : Regex.parse shape.pattern.toList = some (inTurn (.start :: (pieces ++ [.stop]))))
    (h : ∀ value, value ≠ [] ∧ shape.structured value = true ↔ value ∈ wordsInTurn pieces) :
    Agrees shape := by
  refine ⟨_, hparse, fun value ↦ ?_⟩
  rw [Regex.matches_anchored hplain, ← h value, Shape.accepts, accepts, Bool.and_eq_true, Bool.and_eq_true,
    decide_eq_true_eq, decide_eq_true_eq]
  constructor
  · rintro ⟨⟨hne, hle⟩, hs⟩
    exact ⟨hle, hne, hs⟩
  · rintro ⟨hle, hne, hs⟩
    exact ⟨⟨hne, hle⟩, hs⟩

/-- A shape whose rule is a test of every byte. Assumes: the test is that of the class. -/
theorem agrees_of_all {shape : Shape} (p : ℕ → Bool) (chars : CharClass) (hp : ∀ n, p n = true → n < 128)
    (hparse : Regex.parse shape.pattern.toList =
      some (inTurn (.start :: ([.iterate 1 none (.set chars)] ++ [.stop]))))
    (hstructured : shape.structured = allBytes p) (hchars : ∀ c, chars.has c = p c.toNat) :
    Agrees shape := by
  refine agrees_of _ rfl hparse fun value ↦ ?_
  rw [wordsInTurn_singleton, mem_iterate_one, hstructured, allBytes_iff hp]
  simp only [hchars]

/-! ### Digests, object ids and tokens -/

/-- The digits of a digest. -/
def hexDigits : CharClass := ⟨false, [.range 0x30 0x39, .range 0x61 0x66]⟩

theorem isHexDigest_iff : isHexDigest value = true ↔ ∀ c ∈ value, hexDigits.has c = true := by
  have hp : ∀ n, (isAsciiDigit n || (decide (0x61 ≤ n) && decide (n ≤ 0x66))) = true → n < 128 := by
    intro n hn
    simp only [isAsciiDigit, Bool.or_eq_true, Bool.and_eq_true, decide_eq_true_eq] at hn
    omega
  rw [isHexDigest, allBytes_iff hp]
  refine forall₂_congr fun c _ ↦ ?_
  simp [hexDigits, Item.has, isAsciiDigit]

theorem ascii_of_hexDigits {c : Char} (h : hexDigits.has c = true) : c.toNat < 128 := by
  simp only [hexDigits, has_listed, List.any_cons, List.any_nil, Item.has, Bool.or_false, Bool.or_eq_true,
    Bool.and_eq_true, decide_eq_true_eq] at h
  omega

theorem digest_agrees : Agrees DIGEST := by
  refine agrees_of [.iterate 1 none (.set hexDigits)] rfl (by decide +kernel) fun value ↦ ?_
  rw [wordsInTurn_singleton, mem_iterate_one]
  exact and_congr_right fun _ ↦ isHexDigest_iff

theorem object_id_agrees : Agrees OBJECT_ID := by
  refine agrees_of [.alt (inTurn [.iterate 40 (some 40) (.set hexDigits)])
    (inTurn [.iterate 64 (some 64) (.set hexDigits)])] rfl (by decide +kernel) fun value ↦ ?_
  have hexactly (n : ℕ) : value ∈ Regex.words (inTurn [.iterate n (some n) (.set hexDigits)]) ↔
      value.length = n ∧ isHexDigest value = true := by
    rw [words_inTurn, wordsInTurn_singleton, mem_iterate_set, isHexDigest_iff]
    simp only [Option.mem_some_iff, forall_eq', ← Nat.le_antisymm_iff, eq_comm]
  rw [wordsInTurn_singleton, Regex.words, Language.mem_add, hexactly, hexactly, ← or_and_right]
  show _ ∧ isObjectId value = true ↔ _
  rw [isObjectId, Bool.and_eq_true, Bool.or_eq_true, decide_eq_true_eq, decide_eq_true_eq, ← and_assoc]
  refine and_congr_left fun hall ↦ ?_
  rw [length_bytes_of_ascii fun c hc ↦ ascii_of_hexDigits (isHexDigest_iff.mp hall c hc),
    and_iff_right_iff_imp]
  rintro hlength rfl
  simp at hlength

theorem token_agrees : Agrees TOKEN := by
  refine agrees_of_all (fun byte ↦ 0x21 ≤ byte && byte ≤ 0x7E) ⟨false, [.range 0x21 0x7E]⟩ (fun n hn ↦ ?_)
    (by decide +kernel) rfl fun c ↦ ?_
  · simp only [Bool.and_eq_true, decide_eq_true_eq] at hn
    omega
  · simp [Item.has]

/-! ### Lines -/

theorem line_agrees : Agrees LINE := by
  refine agrees_of [.iterate 1 none (.set ⟨true, [.range 0 0x1F, .range 0x7F 0x9F]⟩)] rfl
    (by decide +kernel) fun value ↦ ?_
  rw [wordsInTurn_singleton, mem_iterate_one]
  refine and_congr_right fun _ ↦ ?_
  show (!value.any isControl) = true ↔ _
  rw [Bool.not_eq_true', List.any_eq_false]
  refine forall₂_congr fun c _ ↦ ?_
  simp [isControl, Item.has]
  omega

/-! ### Identifiers of 128 bits -/

theorem isCrockfordUpper_iff {n : ℕ} : isCrockfordUpper n = true ↔
    (48 ≤ n ∧ n ≤ 57) ∨ (65 ≤ n ∧ n ≤ 72) ∨ (74 ≤ n ∧ n ≤ 75) ∨ (77 ≤ n ∧ n ≤ 78) ∨
      (80 ≤ n ∧ n ≤ 84) ∨ (86 ≤ n ∧ n ≤ 90) := by
  simp only [isCrockfordUpper, isAsciiDigit, isAsciiUppercase, Bool.or_eq_true, Bool.and_eq_true,
    Bool.not_eq_true', Bool.or_eq_false_iff, decide_eq_true_eq, decide_eq_false_iff_not]
  omega

/-- The alphabet of a ULID as its pattern lists it. -/
def crockford : CharClass :=
  ⟨false, [.range 48 57, .range 65 72, .range 74 74, .range 75 75, .range 77 77, .range 78 78,
    .range 80 84, .range 86 90]⟩

theorem has_crockford : crockford.has c = isCrockfordUpper c.toNat := by
  rw [Bool.eq_iff_iff, isCrockfordUpper_iff]
  simp [crockford, Item.has]
  omega

theorem ulid_agrees : Agrees ULID := by
  refine agrees_of [.set ⟨false, [.range 48 55]⟩, .iterate 25 (some 25) (.set crockford)] rfl
    (by decide +kernel) fun value ↦ ?_
  have hp : ∀ n, isCrockfordUpper n = true → n < 128 := by
    intro n hn
    rw [isCrockfordUpper_iff] at hn
    omega
  have hhead : ∀ n, (decide (0x30 ≤ n) && decide (n ≤ 0x37)) = true → n < 128 := by
    intro n hn
    simp only [Bool.and_eq_true, decide_eq_true_eq] at hn
    omega
  rw [mem_set_iterate]
  show _ ∧ isCanonicalUlid value = true ↔ _
  rw [isCanonicalUlid, Bool.and_eq_true, Bool.and_eq_true, decide_eq_true_eq, allBytes_iff hp]
  simp only [has_crockford, has_listed, List.any_cons, List.any_nil, Item.has, Bool.or_false]
  constructor
  · rintro ⟨hne, ⟨hlength, hfirst⟩, hall⟩
    obtain ⟨c, tail, rfl⟩ := List.exists_cons_of_ne_nil hne
    rw [length_bytes_of_all hp hall, List.length_cons] at hlength
    rw [firstByte_cons hhead] at hfirst
    refine ⟨c, tail, rfl, hfirst, ⟨by omega, ?_⟩, (List.forall_mem_cons.mp hall).2⟩
    rintro _ ⟨⟩
    omega
  · rintro ⟨c, tail, rfl, hfirst, ⟨hleast, hmost⟩, htail⟩
    have hmost := hmost 25 rfl
    have hc : isCrockfordUpper c.toNat = true := by
      rw [Bool.and_eq_true, decide_eq_true_eq, decide_eq_true_eq] at hfirst
      rw [isCrockfordUpper_iff]
      omega
    have hall : ∀ d ∈ c :: tail, isCrockfordUpper d.toNat = true := List.forall_mem_cons.mpr ⟨hc, htail⟩
    refine ⟨List.cons_ne_nil _ _, ⟨?_, (firstByte_cons hhead c tail).trans hfirst⟩, hall⟩
    rw [length_bytes_of_all hp hall, List.length_cons]
    omega

/-! ### Names in one case -/

theorem isIdentifier_iff {isLetter : ℕ → Bool} (hletter : ∀ n, isLetter n = true → n < 128) :
    isIdentifier isLetter value = true ↔ ∃ c text, value = c :: text ∧
      (isLetter c.toNat || c.toNat = 0x5F) = true ∧
        ∀ d ∈ text, (isLetter d.toNat || isAsciiDigit d.toNat || d.toNat = 0x5F) = true := by
  have hhead : ∀ n, (isLetter n || decide (n = 0x5F)) = true → n < 128 := by
    intro n hn
    rw [Bool.or_eq_true, decide_eq_true_eq] at hn
    exact hn.elim (hletter n) (by omega)
  have htail : ∀ n, (isLetter n || isAsciiDigit n || decide (n = 0x5F)) = true → n < 128 := by
    intro n hn
    simp only [isAsciiDigit, Bool.or_eq_true, Bool.and_eq_true, decide_eq_true_eq] at hn
    rcases hn with (hn | hn) | hn
    · exact hletter n hn
    · omega
    · omega
  rw [isIdentifier]
  cases value with
  | nil => simp [firstByte]
  | cons c text =>
    rw [Bool.and_eq_true, firstByte_cons hhead]
    by_cases hc : c.toNat < 128
    · have htext := @allBytes_iff text _ htail
      rw [allBytes] at htext
      rw [bytes_ascii_cons hc, List.tail_cons, htext]
      constructor
      · exact fun ⟨hc, htext⟩ ↦ ⟨c, text, rfl, hc, htext⟩
      · rintro ⟨_, _, hcons, hc, htext⟩
        cases hcons
        exact ⟨hc, htext⟩
    · refine iff_of_false (fun h ↦ hc (hhead _ h.1)) ?_
      rintro ⟨_, _, hcons, hc', -⟩
      cases hcons
      exact hc (hhead _ hc')

/-- Assumes: the classes of the pattern are a letter or an underscore, and those and the digits. -/
theorem identifier_agrees {shape : Shape} (isLetter : ℕ → Bool) (first rest : CharClass)
    (hletter : ∀ n, isLetter n = true → n < 128)
    (hparse : Regex.parse shape.pattern.toList =
      some (inTurn (.start :: ([.set first, .iterate 0 none (.set rest)] ++ [.stop]))))
    (hstructured : shape.structured = isIdentifier isLetter)
    (hfirst : ∀ c, first.has c = (isLetter c.toNat || c.toNat = 0x5F))
    (hrest : ∀ c, rest.has c = (isLetter c.toNat || isAsciiDigit c.toNat || c.toNat = 0x5F)) :
    Agrees shape := by
  refine agrees_of _ rfl hparse fun value ↦ ?_
  rw [mem_set_iterate, hstructured, isIdentifier_iff hletter]
  simp only [← hfirst, ← hrest]
  constructor
  · rintro ⟨-, c, text, rfl, hc, htext⟩
    exact ⟨c, text, rfl, hc, ⟨Nat.zero_le _, fun _ hm ↦ nomatch hm⟩, htext⟩
  · rintro ⟨c, text, rfl, hc, -, htext⟩
    exact ⟨List.cons_ne_nil _ _, c, text, rfl, hc, htext⟩

theorem sql_identifier_agrees : Agrees SQL_IDENTIFIER := by
  refine identifier_agrees isAsciiLowercase ⟨false, [.range 0x61 0x7A, .range 0x5F 0x5F]⟩
    ⟨false, [.range 0x61 0x7A, .range 0x30 0x39, .range 0x5F 0x5F]⟩ (fun n hn ↦ ?_) (by decide +kernel) rfl
    (fun c ↦ ?_) fun c ↦ ?_
  · simp only [isAsciiLowercase, Bool.and_eq_true, decide_eq_true_eq] at hn
    omega
  · rw [Bool.eq_iff_iff]
    simp [isAsciiLowercase, Item.has]
    omega
  · rw [Bool.eq_iff_iff]
    simp [isAsciiLowercase, isAsciiDigit, Item.has]
    omega

theorem env_name_agrees : Agrees ENV_NAME := by
  refine identifier_agrees isAsciiUppercase ⟨false, [.range 0x41 0x5A, .range 0x5F 0x5F]⟩
    ⟨false, [.range 0x41 0x5A, .range 0x30 0x39, .range 0x5F 0x5F]⟩ (fun n hn ↦ ?_) (by decide +kernel) rfl
    (fun c ↦ ?_) fun c ↦ ?_
  · simp only [isAsciiUppercase, Bool.and_eq_true, decide_eq_true_eq] at hn
    omega
  · rw [Bool.eq_iff_iff]
    simp [isAsciiUppercase, Item.has]
    omega
  · rw [Bool.eq_iff_iff]
    simp [isAsciiUppercase, isAsciiDigit, Item.has]
    omega

/-! ### Slugs -/

/-- The rule for a slug read over characters. -/
theorem isSlug_eq : isSlug value = Model.isSlug value := by
  have hp : ∀ n, (isAsciiLowercase n || isAsciiDigit n || decide (n = 0x2D)) = true → n < 128 := by
    intro n hn
    simp only [isAsciiLowercase, isAsciiDigit, Bool.or_eq_true, Bool.and_eq_true, decide_eq_true_eq] at hn
    omega
  rw [isSlug, Model.isSlug]
  refine congrArg _ (Bool.eq_iff_iff.mpr ?_)
  rw [allBytes_iff hp, List.all_eq_true]
  refine forall₂_congr fun c _ ↦ ?_
  simp only [isAsciiLowercase, isAsciiDigit, Bool.or_eq_true, Bool.and_eq_true, decide_eq_true_eq,
    isLower_iff, isDigit_iff, ← Char.toNat_inj]
  have hdash : '-'.toNat = 0x2D := rfl
  omega

/-- The characters of a group as the pattern lists them. -/
def groupChars : CharClass := ⟨false, [.range 0x61 0x7A, .range 0x30 0x39]⟩

theorem has_groupChars : groupChars.has c = isGroup c := by
  rw [Bool.eq_iff_iff]
  simp [groupChars, Item.has, isGroup, isLower_iff, isDigit_iff]

theorem slug_agrees : Agrees SLUG := by
  refine agrees_of [.iterate 1 none (.set groupChars),
    .iterate 0 none (inTurn [.set (Regex.only '-'), .iterate 1 none (.set groupChars)])] rfl
    (by decide +kernel) fun value ↦ ?_
  show _ ∧ isSlug value = true ↔ _
  rw [isSlug_eq, mem_wordsInTurn_cons, wordsInTurn_singleton]
  simp only [mem_iterate_led, mem_iterate_one, has_groupChars]
  constructor
  · rintro ⟨hne, hslug⟩
    obtain ⟨group, groups, hgroups, rfl⟩ := (grouped_of_isSlug hslug).groups hne
    obtain ⟨hgroup, hrest⟩ := List.forall_mem_cons.mp hgroups
    exact ⟨group, hgroup, _, ⟨groups, ⟨Nat.zero_le _, fun _ hm ↦ nomatch hm⟩, hrest, rfl⟩, rfl⟩
  · rintro ⟨group, hgroup, _, ⟨groups, -, hgroups, rfl⟩, rfl⟩
    exact ⟨List.append_ne_nil_of_left_ne_nil hgroup.1 _,
      isSlug_of_grouped (grouped_of_groups (List.forall_mem_cons.mpr ⟨hgroup, hgroups⟩))⟩

/-! ### Versions -/

def number : Pattern := .iterate 1 (some 9) (.set ⟨false, [.range 0x30 0x39]⟩)

/-- The numbers of a version. -/
def numbers : List Pattern := [number, .iterate 0 (some 3) (inTurn [.set (Regex.only '.'), number])]

/-- The characters of a pre-release or a build. -/
def buildChars : CharClass :=
  ⟨false, [.range 0x30 0x39, .range 0x41 0x5A, .range 0x61 0x7A, .range 0x2E 0x2E, .range 0x2D 0x2D]⟩

/-- A pre-release or a build. -/
def build : Pattern :=
  .iterate 0 (some 1)
    (inTurn [.set ⟨false, [.range 0x2D 0x2D, .range 0x2B 0x2B]⟩, .iterate 1 none (.set buildChars)])

theorem isSign_iff : isSign c = true ↔ c.toNat = 0x2D ∨ c.toNat = 0x2B := by
  simp only [isSign, List.contains_eq_mem, List.mem_cons, List.not_mem_nil, or_false, decide_eq_true_eq,
    ← Char.toNat_inj]
  rfl

theorem isNumber_iff : isNumber value = true ↔ value ∈ Regex.words number := by
  have hp : ∀ n, isAsciiDigit n = true → n < 128 := by
    intro n hn
    simp only [isAsciiDigit, Bool.and_eq_true, decide_eq_true_eq] at hn
    omega
  rw [isNumber, Bool.and_eq_true, Bool.and_eq_true, decide_eq_true_eq, decide_eq_true_eq, number,
    mem_iterate_set, allBytes_iff hp]
  simp only [Option.mem_some_iff, forall_eq', has_listed, List.any_cons, List.any_nil, Item.has,
    Bool.or_false, isAsciiDigit]
  refine and_congr_left fun hall ↦ ?_
  rw [length_bytes_of_all hp hall]

theorem digit_of_isNumber (h : isNumber value = true) (hc : c ∈ value) : 0x30 ≤ c.toNat ∧ c.toNat ≤ 0x39 := by
  have hhas := (mem_iterate_set.mp (isNumber_iff.mp h)).2 c hc
  simpa [Item.has] using hhas

theorem mem_numbers : value ∈ wordsInTurn numbers ↔ ∃ (first : Text) (rest : List Text),
    (∀ part ∈ first :: rest, isNumber part = true) ∧ rest.length ≤ 3 ∧
      value = first ++ rest.flatMap ('.' :: ·) := by
  rw [numbers, mem_wordsInTurn_cons, wordsInTurn_singleton]
  simp only [mem_iterate_led, ← isNumber_iff]
  constructor
  · rintro ⟨first, hfirst, _, ⟨rest, ⟨-, hmost⟩, hrest, rfl⟩, rfl⟩
    exact ⟨first, rest, List.forall_mem_cons.mpr ⟨hfirst, hrest⟩, hmost 3 rfl, rfl⟩
  · rintro ⟨first, rest, hall, hmost, rfl⟩
    obtain ⟨hfirst, hrest⟩ := List.forall_mem_cons.mp hall
    refine ⟨first, hfirst, _, ⟨rest, ⟨Nat.zero_le _, ?_⟩, hrest, rfl⟩, rfl⟩
    rintro _ ⟨⟩
    exact hmost

/-- The parts between the dots are one to four numbers when the text is the numbers of a version. -/
theorem numbers_iff : (1 ≤ (split '.' value).length ∧ (split '.' value).length ≤ 4) ∧
    (∀ part ∈ split '.' value, isNumber part = true) ↔ value ∈ wordsInTurn numbers := by
  rw [mem_numbers]
  constructor
  · rintro ⟨⟨-, hmost⟩, hall⟩
    obtain ⟨first, rest, hsplit⟩ := List.exists_cons_of_ne_nil (@split_ne_nil '.' value)
    rw [hsplit] at hmost hall
    rw [List.length_cons] at hmost
    exact ⟨first, rest, hall, by omega, (split_eq_cons_iff.mp hsplit).2⟩
  · rintro ⟨first, rest, hall, hmost, rfl⟩
    have hdot : ∀ part ∈ first :: rest, '.' ∉ part := by
      intro part hpart hmem
      have hdigit := (digit_of_isNumber (hall part hpart) hmem).1
      revert hdigit
      decide
    rw [split_eq_cons_iff.mpr ⟨hdot, rfl⟩, List.length_cons]
    exact ⟨by omega, hall⟩

theorem not_isSign_of_mem_numbers (h : value ∈ wordsInTurn numbers) (hc : c ∈ value) : isSign c = false := by
  obtain ⟨first, rest, hall, -, rfl⟩ := mem_numbers.mp h
  refine eq_false_of_ne_true fun hsign ↦ ?_
  have hcode := isSign_iff.mp hsign
  rcases List.mem_append.mp hc with hfirst | hlater
  · have hdigit := digit_of_isNumber (hall first List.mem_cons_self) hfirst
    omega
  · obtain ⟨part, hpart, hmem⟩ := List.mem_flatMap.mp hlater
    rcases List.mem_cons.mp hmem with rfl | hmem
    · revert hcode
      decide
    · have hdigit := digit_of_isNumber (hall part (List.mem_cons_of_mem _ hpart)) hmem
      omega

theorem mem_build : value ∈ Regex.words build ↔ value = [] ∨ ∃ c rest, value = c :: rest ∧
    isSign c = true ∧ rest ≠ [] ∧
      ∀ d ∈ rest, (isAsciiAlphanumeric d.toNat || d.toNat = 0x2E || d.toNat = 0x2D) = true := by
  have hfirst (c : Char) : (CharClass.mk false [.range 0x2D 0x2D, .range 0x2B 0x2B]).has c = isSign c := by
    rw [Bool.eq_iff_iff, isSign_iff]
    simp [Item.has]
    omega
  have hrest (c : Char) : buildChars.has c =
      (isAsciiAlphanumeric c.toNat || c.toNat = 0x2E || c.toNat = 0x2D) := by
    rw [Bool.eq_iff_iff]
    simp [buildChars, Item.has, isAsciiAlphanumeric, isAsciiDigit, isAsciiUppercase, isAsciiLowercase]
    omega
  rw [build, mem_optional, words_inTurn, mem_set_iterate]
  simp only [hfirst, hrest, ← Nat.lt_iff_add_one_le, List.length_pos_iff, Option.not_mem_none,
    IsEmpty.forall_iff, implies_true, and_true]

/-- The test of what stands after the numbers, where it is nothing or begins as it may. -/
theorem build_iff (hhead : ∀ c ∈ value.head?, isSign c = true) :
    (value = [] ∨ 1 < (bytes value).length ∧ ((bytes value).tail.all fun byte ↦
        isAsciiAlphanumeric byte.toNat || byte.toNat = 0x2E || byte.toNat = 0x2D) = true) ↔
      value ∈ Regex.words build := by
  have hp : ∀ n, (isAsciiAlphanumeric n || decide (n = 0x2E) || decide (n = 0x2D)) = true → n < 128 := by
    intro n hn
    simp only [isAsciiAlphanumeric, isAsciiDigit, isAsciiUppercase, isAsciiLowercase, Bool.or_eq_true,
      Bool.and_eq_true, decide_eq_true_eq] at hn
    omega
  rw [mem_build]
  refine or_congr_right ?_
  cases value with
  | nil =>
    refine iff_of_false (fun h ↦ absurd h.1 (by decide)) ?_
    rintro ⟨c, rest, hcons, -⟩
    cases hcons
  | cons c rest =>
    have hc := hhead c rfl
    have hcode := isSign_iff.mp hc
    have hall := @allBytes_iff rest _ hp
    rw [allBytes] at hall
    rw [bytes_ascii_cons (by omega), List.tail_cons, List.length_cons, hall]
    constructor
    · rintro ⟨hlength, hrest⟩
      refine ⟨c, rest, rfl, hc, ?_, hrest⟩
      rintro rfl
      exact absurd hlength (by decide)
    · rintro ⟨_, _, hcons, -, hne, hrest⟩
      cases hcons
      refine ⟨?_, hrest⟩
      rw [length_bytes_of_all hp hrest]
      have hpos := List.length_pos_iff.mpr hne
      omega

theorem cut_append {head tail : Text} (hhead : ∀ c ∈ head, isSign c = false)
    (htail : ∀ c ∈ tail.head?, isSign c = true) :
    (head ++ tail).takeWhile (!isSign ·) = head ∧ (head ++ tail).dropWhile (!isSign ·) = tail := by
  have hall : ∀ c ∈ head, (!isSign c) = true := fun c hc ↦ by rw [hhead c hc]; rfl
  rw [List.takeWhile_append_of_pos hall, List.dropWhile_append_of_pos hall]
  cases tail with
  | nil => exact ⟨List.append_nil head, rfl⟩
  | cons c rest =>
    rw [List.takeWhile_cons, List.dropWhile_cons, htail c rfl]
    exact ⟨List.append_nil head, rfl⟩

theorem version_agrees : Agrees VERSION := by
  refine agrees_of (numbers ++ [build]) rfl (by decide +kernel) fun value ↦ ?_
  have hhead : ∀ c ∈ (value.dropWhile (!isSign ·)).head?, isSign c = true := by
    intro c hc
    have hnot := List.head?_dropWhile_not (!isSign ·) value
    rw [Option.mem_def.mp hc] at hnot
    simpa using hnot
  have hversion : isVersion value = true ↔ value.takeWhile (!isSign ·) ∈ wordsInTurn numbers ∧
      value.dropWhile (!isSign ·) ∈ Regex.words build := by
    rw [← build_iff hhead, ← numbers_iff]
    simp only [isVersion, Bool.and_eq_true, Bool.or_eq_true, decide_eq_true_eq, ← List.all_eq_true]
  show _ ∧ isVersion value = true ↔ _
  rw [hversion, wordsInTurn_append, Language.mem_mul, wordsInTurn_singleton]
  constructor
  · rintro ⟨-, hnumbers, hbuild⟩
    exact ⟨_, hnumbers, _, hbuild, List.takeWhile_append_dropWhile⟩
  · rintro ⟨head, hnumbers, tail, hbuild, rfl⟩
    have hstart : ∀ c ∈ tail.head?, isSign c = true := by
      rcases mem_build.mp hbuild with rfl | ⟨c, rest, rfl, hc, -⟩
      · exact fun _ hd ↦ nomatch hd
      · rintro _ ⟨⟩
        exact hc
    obtain ⟨htake, hdrop⟩ := cut_append (fun c ↦ not_isSign_of_mem_numbers hnumbers) hstart
    rw [htake, hdrop]
    refine ⟨?_, hnumbers, hbuild⟩
    obtain ⟨first, rest, hall, -, rfl⟩ := mem_numbers.mp hnumbers
    have hfirst : first ≠ [] := by
      rintro rfl
      have hempty := hall [] List.mem_cons_self
      revert hempty
      decide
    rw [List.append_assoc]
    exact List.append_ne_nil_of_left_ne_nil hfirst _

/-! ### Branches -/

/-- The characters of a branch name as the pattern lists them. -/
def branchChars : CharClass :=
  ⟨true, [.space, .range 0x7E 0x7E, .range 0x5E 0x5E, .range 0x3A 0x3A, .range 0x3F 0x3F,
    .range 0x2A 0x2A, .range 0x5B 0x5B, .range 0x5C 0x5C, .range 0 0x1F, .range 0x7F 0x9F]⟩

/-- Two dots, two slashes, or an at sign and a brace. -/
def operators : Pattern :=
  .alt (inTurn (literal "..".toList)) (.alt (inTurn (literal "//".toList)) (inTurn (literal "@\x7b".toList)))

/-- What the lookaheads of a branch name refuse. -/
def refused : List Pattern :=
  [inTurn [.set ⟨false, [.range 0x2D 0x2D, .range 0x2F 0x2F]⟩],
    inTurn [.iterate 0 none (.set Regex.dot), operators],
    inTurn (.iterate 0 none (.set Regex.dot) ::
      ([.set ⟨false, [.range 0x2F 0x2F, .range 0x2E 0x2E]⟩] ++ [.stop])),
    inTurn (.iterate 0 none (.set Regex.dot) :: (literal ".lock".toList ++ [.stop]))]

theorem has_branchChars : branchChars.has c =
    !(isWhitespace c || isControl c || FORBIDDEN.contains c) := by
  rw [branchChars, has_others]
  refine congrArg _ (Bool.eq_iff_iff.mpr ?_)
  simp only [List.any_cons, List.any_nil, Item.has, FORBIDDEN, isControl, List.contains_eq_mem,
    List.mem_cons, List.not_mem_nil, or_false, Bool.or_false, Bool.or_eq_true, Bool.and_eq_true,
    decide_eq_true_eq, ← Char.toNat_inj]
  have hcodes : '~'.toNat = 0x7E ∧ '^'.toNat = 0x5E ∧ ':'.toNat = 0x3A ∧ '?'.toNat = 0x3F ∧
    '*'.toNat = 0x2A ∧ '['.toNat = 0x5B ∧ '\\'.toNat = 0x5C := by decide
  cases isWhitespace c with
  | true => exact iff_of_true (Or.inl rfl) (Or.inl (Or.inl rfl))
  | false =>
    simp only [Bool.false_eq_true, false_or]
    omega

theorem rsplitOnce_lock_iff : (rsplitOnce '.' value).map Prod.snd = some "lock".toList ↔
    ".lock".toList <:+ value := by
  rw [Option.map_eq_some_iff]
  constructor
  · rintro ⟨⟨before, _⟩, hcut, rfl⟩
    exact ⟨before, (rsplitOnce_eq_some hcut).symm⟩
  · rintro ⟨before, rfl⟩
    exact ⟨(before, "lock".toList), rsplitOnce_append (by decide), rfl⟩

theorem has_pair {first second : Char} :
    (CharClass.mk false [.range first.toNat first.toNat, .range second.toNat second.toNat]).has c =
      [first, second].contains c := by
  rw [Bool.eq_iff_iff]
  simp [Item.has, ← Char.toNat_inj]
  omega

/-- On one line, the lookaheads let through what the first tests of the function do. -/
theorem refused_iff (hline : '\n' ∉ value) : (∀ body ∈ refused, ¬∃ t, Regex.Run value body value t) ↔
    (¬value.head?.any (['-', '/'].contains ·) = true ∧ ¬value.getLast?.any (['/', '.'].contains ·) = true) ∧
      (¬"..".toList <:+: value ∧ ¬"//".toList <:+: value ∧ ¬"@\x7b".toList <:+: value) ∧
        (rsplitOnce '.' value).map Prod.snd ≠ some "lock".toList := by
  have hhead : value.head?.any (['-', '/'].contains ·) =
      value.head?.any (CharClass.mk false [.range 0x2D 0x2D, .range 0x2F 0x2F]).has :=
    congrArg (value.head?.any ·) (funext fun c ↦ has_pair.symm)
  have hlast : value.getLast?.any (['/', '.'].contains ·) =
      value.getLast?.any (CharClass.mk false [.range 0x2F 0x2F, .range 0x2E 0x2E]).has :=
    congrArg (value.getLast?.any ·) (funext fun c ↦ has_pair.symm)
  have hoperators : (∃ word ∈ Regex.words operators, word <:+: value) ↔
      "..".toList <:+: value ∨ "//".toList <:+: value ∨ "@\x7b".toList <:+: value := by
    simp only [operators, Regex.words, Language.mem_add, words_inTurn, mem_wordsInTurn_literal,
      or_and_right, exists_or, exists_eq_left]
  have hlock : (∃ word ∈ wordsInTurn (literal ".lock".toList), word <:+ value) ↔
      ".lock".toList <:+ value := by
    simp only [mem_wordsInTurn_literal, exists_eq_left]
  rw [refused, List.forall_mem_cons, List.forall_mem_cons, List.forall_mem_cons, List.forall_mem_singleton,
    Regex.led_iff, Regex.held_iff (by decide) hline, Regex.ended_iff rfl hline,
    Regex.ended_iff (by decide) hline, Regex.last_iff, hoperators, hlock, ← rsplitOnce_lock_iff, hhead,
    hlast, not_or, not_or]
  constructor
  · rintro ⟨hfirst, hpairs, hend, hname⟩
    exact ⟨⟨hfirst, hend⟩, hpairs, hname⟩
  · rintro ⟨⟨hfirst, hend⟩, hpairs, hname⟩
    exact ⟨hfirst, hpairs, hend, hname⟩

theorem branch_agrees : Agrees BRANCH := by
  refine ⟨inTurn (.start :: (refused.map .ahead ++ ([.iterate 1 none (.set branchChars)] ++ [.stop]))),
    by decide +kernel, fun value ↦ ?_⟩
  rw [Regex.matches_guarded rfl, wordsInTurn_singleton, mem_iterate_one, Shape.accepts, accepts,
    Bool.and_eq_true, Bool.and_eq_true, decide_eq_true_eq, decide_eq_true_eq]
  show (value ≠ [] ∧ value.length ≤ 255) ∧ isBranchName value = true ↔ value.length ≤ 255 ∧ _
  have hchars : (!value.any fun c ↦ isWhitespace c || isControl c || FORBIDDEN.contains c) = true ↔
      ∀ c ∈ value, branchChars.has c = true := by
    rw [Bool.not_eq_true', List.any_eq_false]
    refine forall₂_congr fun c _ ↦ ?_
    rw [has_branchChars, Bool.not_eq_true', Bool.not_eq_true]
  have hname : isBranchName value = true ↔ (∀ body ∈ refused, ¬∃ t, Regex.Run value body value t) ∧
      ∀ c ∈ value, branchChars.has c = true := by
    rw [isBranchName, Bool.and_eq_true, hchars]
    refine and_congr_left fun hall ↦ ?_
    have hline : '\n' ∉ value := by
      intro hmem
      have hbreak := hall _ hmem
      revert hbreak
      decide
    rw [refused_iff hline]
    simp only [Bool.and_eq_true, Bool.not_eq_true', decide_eq_true_eq, decide_eq_false_iff_not,
      Bool.not_eq_true, and_assoc]
  rw [hname]
  constructor
  · rintro ⟨⟨hne, hle⟩, hguards, hall⟩
    exact ⟨hle, hguards, hne, hall⟩
  · rintro ⟨hle, hguards, hne, hall⟩
    exact ⟨⟨hne, hle⟩, hguards, hall⟩

/-! ### Every shape -/

/-- Each shape accepts the texts that are no longer than its cap and that the pattern it publishes matches,
and no other. -/
theorem shapes_agree : ∀ shape ∈ SHAPES, Agrees shape := by
  simp only [SHAPES, List.forall_mem_cons, List.not_mem_nil, IsEmpty.forall_iff, implies_true, and_true]
  exact ⟨ulid_agrees, digest_agrees, object_id_agrees, slug_agrees, sql_identifier_agrees, env_name_agrees,
    branch_agrees, token_agrees, line_agrees, version_agrees⟩

/-- A branch name, which its pattern says with lookaheads. -/
theorem shapes_agree_branch : Agrees BRANCH := shapes_agree BRANCH (by simp [SHAPES])

end Nodal.Model.Shapes
