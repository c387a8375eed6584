import Mathlib.Computability.Language
import Nodal.Foundation.Text

/-!
# Regular expressions with anchors and negative lookaheads

A pattern is read from its text (`parse`) and matches from a position of a text to another one (`Run`). A
pattern of pieces with no anchor and no lookahead in them spells words (`words`), which are a language, and
such a pattern between the two anchors, after any number of lookaheads, matches the words the lookaheads let
through (`matches_guarded`).
-/

set_option autoImplicit false

namespace Nodal.Foundation.Regex

/-! ### Patterns -/

/-- What a class lists: the code points from one to another, or the white space. -/
inductive Item
  | range (first last : ℕ)
  | space
  deriving DecidableEq

structure CharClass where
  negated : Bool
  items : List Item
  deriving DecidableEq

inductive Pattern
  | empty
  | start
  | stop
  | set (chars : CharClass)
  | seq (first rest : Pattern)
  | alt (first second : Pattern)
  | iterate (least : ℕ) (most : Option ℕ) (body : Pattern)
  | ahead (body : Pattern)
  deriving DecidableEq

def Item.has : Item → Char → Bool
  | range first last, c => first ≤ c.toNat && c.toNat ≤ last
  | space, c => Text.isWhitespace c

def CharClass.has (chars : CharClass) (c : Char) : Bool :=
  chars.negated ^^ chars.items.any (·.has c)

@[simp] theorem has_listed (items : List Item) (c : Char) :
    (CharClass.mk false items).has c = items.any (·.has c) := Bool.false_xor _

@[simp] theorem has_others (items : List Item) (c : Char) :
    (CharClass.mk true items).has c = !items.any (·.has c) := Bool.true_xor _

/-- One character, as a class. -/
def only (c : Char) : CharClass := ⟨false, [.range c.toNat c.toNat]⟩

/-- What `.` stands for. -/
def dot : CharClass := ⟨true, [.range 10 10]⟩

/-! ### Reading a pattern -/

/-- The value of a hexadecimal digit. -/
def hexDigit (c : Char) : Option ℕ :=
  if c.isDigit then some (c.toNat - 48)
  else if 'A'.toNat ≤ c.toNat ∧ c.toNat ≤ 'F'.toNat then some (c.toNat - 55)
  else if 'a'.toNat ≤ c.toNat ∧ c.toNat ≤ 'f'.toNat then some (c.toNat - 87)
  else none

/-- What a backslash and what comes after it stand for. -/
def escape : Text → Option (Item × Text)
  | 's' :: rest => some (.space, rest)
  | 'x' :: high :: low :: rest => do
    let n := 16 * (← hexDigit high) + (← hexDigit low)
    some (.range n n, rest)
  | c :: rest => if c.isAlphanum then none else some (.range c.toNat c.toNat, rest)
  | [] => none

/-- One character of a class. -/
def classChar : Text → Option (Item × Text)
  | '\\' :: rest => escape rest
  | ']' :: _ => none
  | c :: rest => some (.range c.toNat c.toNat, rest)
  | [] => none

/-- What a class lists, up to the bracket that ends it. A dash between two characters is a range. -/
def classItems : ℕ → Text → Option (List Item × Text)
  | 0, _ => none
  | _ + 1, ']' :: rest => some ([], rest)
  | fuel + 1, text => do
    let (item, rest) ← classChar text
    match item, rest with
    | .range first _, '-' :: next =>
      match classChar next with
      | some (.range last _, rest) => do
        let (items, rest) ← classItems fuel rest
        some (.range first last :: items, rest)
      | _ => do
        let (items, rest) ← classItems fuel rest
        some (item :: items, rest)
    | _, _ => do
      let (items, rest) ← classItems fuel rest
      some (item :: items, rest)

/-- A class, after the bracket that begins it. -/
def charClass : Text → Option (CharClass × Text)
  | '^' :: rest => (classItems (rest.length + 1) rest).map fun items ↦ (⟨true, items.1⟩, items.2)
  | rest => (classItems (rest.length + 1) rest).map fun items ↦ (⟨false, items.1⟩, items.2)

/-- A number as far as its digits go. -/
def digits : ℕ → Text → ℕ × Text
  | n, c :: rest => if c.isDigit then digits (10 * n + (c.toNat - 48)) rest else (n, c :: rest)
  | n, [] => (n, [])

/-- A pattern with the quantifier after it, where there is one. -/
def quantified (body : Pattern) : Text → Option (Pattern × Text)
  | '*' :: rest => some (.iterate 0 none body, rest)
  | '+' :: rest => some (.iterate 1 none body, rest)
  | '?' :: rest => some (.iterate 0 (some 1) body, rest)
  | '{' :: rest =>
    match digits 0 rest with
    | (least, '}' :: rest) => some (.iterate least (some least) body, rest)
    | (least, ',' :: rest) =>
      match digits 0 rest with
      | (most, '}' :: rest) => some (.iterate least (some most) body, rest)
      | _ => none
    | _ => none
  | rest => some (body, rest)

mutual

/-- Alternatives, up to the end or the parenthesis that ends the group. -/
def alternatives : ℕ → Text → Option (Pattern × Text)
  | 0, _ => none
  | fuel + 1, text => do
    let (first, rest) ← sequence fuel text
    match rest with
    | '|' :: rest => do
      let (second, rest) ← alternatives fuel rest
      some (.alt first second, rest)
    | rest => some (first, rest)

def sequence : ℕ → Text → Option (Pattern × Text)
  | 0, _ => none
  | _ + 1, [] => some (.empty, [])
  | _ + 1, '|' :: rest => some (.empty, '|' :: rest)
  | _ + 1, ')' :: rest => some (.empty, ')' :: rest)
  | fuel + 1, text => do
    let (body, rest) ← atom fuel text
    let (body, rest) ← quantified body rest
    let (more, rest) ← sequence fuel rest
    some (.seq body more, rest)

def atom : ℕ → Text → Option (Pattern × Text)
  | 0, _ => none
  | _ + 1, '^' :: rest => some (.start, rest)
  | _ + 1, '$' :: rest => some (.stop, rest)
  | _ + 1, '.' :: rest => some (.set dot, rest)
  | _ + 1, '[' :: rest => (charClass rest).map fun chars ↦ (.set chars.1, chars.2)
  | _ + 1, '\\' :: rest => (escape rest).map fun item ↦ (.set ⟨false, [item.1]⟩, item.2)
  | fuel + 1, '(' :: '?' :: '!' :: rest => do
    match ← alternatives fuel rest with
    | (body, ')' :: rest) => some (.ahead body, rest)
    | _ => none
  | fuel + 1, '(' :: '?' :: ':' :: rest => do
    match ← alternatives fuel rest with
    | (body, ')' :: rest) => some (body, rest)
    | _ => none
  | fuel + 1, '(' :: rest => do
    match ← alternatives fuel rest with
    | (body, ')' :: rest) => some (body, rest)
    | _ => none
  | _ + 1, c :: rest => if "*+?{}])|".toList.contains c then none else some (.set (only c), rest)
  | _ + 1, [] => none

end

/-- The pattern a text says. -/
def parse (text : Text) : Option Pattern :=
  match alternatives (3 * text.length + 3) text with
  | some (pattern, []) => some pattern
  | _ => none

/-! ### What a pattern matches -/

/-- So many steps one after the other. -/
def Times (step : Text → Text → Prop) : ℕ → Text → Text → Prop
  | 0, s, t => s = t
  | n + 1, s, t => ∃ u, step s u ∧ Times step n u t

/-- In a text, a pattern matches from where `s` is left to where `t` is left. -/
def Run (whole : Text) : Pattern → Text → Text → Prop
  | .empty, s, t => s = t
  | .start, s, t => s = whole ∧ s = t
  | .stop, s, t => s = [] ∧ s = t
  | .set chars, s, t => ∃ c, chars.has c = true ∧ s = c :: t
  | .seq first rest, s, t => ∃ u, Run whole first s u ∧ Run whole rest u t
  | .alt first second, s, t => Run whole first s t ∨ Run whole second s t
  | .iterate least most body, s, t =>
    ∃ n, least ≤ n ∧ (∀ m ∈ most, n ≤ m) ∧ Times (Run whole body) n s t
  | .ahead body, s, t => s = t ∧ ¬∃ u, Run whole body s u

/-- A pattern matches somewhere in a text. -/
def Matches (pattern : Pattern) (text : Text) : Prop :=
  ∃ s, s <:+ text ∧ ∃ t, Run text pattern s t

/-- No anchor and no lookahead. -/
def plain : Pattern → Bool
  | .empty => true
  | .start => false
  | .stop => false
  | .set _ => true
  | .seq first rest => plain first && plain rest
  | .alt first second => plain first && plain second
  | .iterate _ _ body => plain body
  | .ahead _ => false

/-- The words a pattern with no anchor and no lookahead spells. -/
def words : Pattern → Language Char
  | .empty => 1
  | .start => 0
  | .stop => 0
  | .set chars => {word | ∃ c, chars.has c = true ∧ word = [c]}
  | .seq first rest => words first * words rest
  | .alt first second => words first + words second
  | .iterate least most body =>
    {word | ∃ n, least ≤ n ∧ (∀ m ∈ most, n ≤ m) ∧ word ∈ words body ^ n}
  | .ahead _ => 0

variable {whole s t word text : Text} {pattern body : Pattern} {chars : CharClass} {c : Char} {n : ℕ}

theorem times_iff {step : Text → Text → Prop} {language : Language Char}
    (h : ∀ s t, step s t ↔ ∃ word ∈ language, s = word ++ t) :
    Times step n s t ↔ ∃ word ∈ language ^ n, s = word ++ t := by
  induction n generalizing s with
  | zero => simp [Times, Language.mem_one]
  | succ n ih =>
    constructor
    · rintro ⟨u, hstep, htimes⟩
      obtain ⟨first, hfirst, rfl⟩ := (h s u).mp hstep
      obtain ⟨rest, hrest, rfl⟩ := ih.mp htimes
      refine ⟨first ++ rest, ?_, (List.append_assoc _ _ _).symm⟩
      rw [pow_succ']
      exact Language.append_mem_mul hfirst hrest
    · rintro ⟨word, hword, rfl⟩
      rw [pow_succ', Language.mem_mul] at hword
      obtain ⟨first, hfirst, rest, hrest, rfl⟩ := hword
      rw [List.append_assoc]
      exact ⟨rest ++ t, (h _ _).mpr ⟨first, hfirst, rfl⟩, ih.mpr ⟨rest, hrest, rfl⟩⟩

/-- A pattern with no anchor and no lookahead takes one of its words off the text that is left. -/
theorem run_iff (h : plain pattern = true) :
    Run whole pattern s t ↔ ∃ word ∈ words pattern, s = word ++ t := by
  induction pattern generalizing s t with
  | empty => simp [Run, words, Language.mem_one]
  | start => cases h
  | stop => cases h
  | ahead body => cases h
  | set chars =>
    constructor
    · rintro ⟨c, hc, rfl⟩
      exact ⟨[c], ⟨c, hc, rfl⟩, rfl⟩
    · rintro ⟨_, ⟨c, hc, rfl⟩, rfl⟩
      exact ⟨c, hc, rfl⟩
  | seq first rest ihfirst ihrest =>
    rw [plain, Bool.and_eq_true] at h
    constructor
    · rintro ⟨u, hfirst, hrest⟩
      obtain ⟨before, hbefore, rfl⟩ := (ihfirst h.1).mp hfirst
      obtain ⟨after, hafter, rfl⟩ := (ihrest h.2).mp hrest
      exact ⟨before ++ after, Language.append_mem_mul hbefore hafter, (List.append_assoc _ _ _).symm⟩
    · rintro ⟨word, hword, rfl⟩
      obtain ⟨before, hbefore, after, hafter, rfl⟩ := Language.mem_mul.mp hword
      rw [List.append_assoc]
      exact ⟨after ++ t, (ihfirst h.1).mpr ⟨before, hbefore, rfl⟩, (ihrest h.2).mpr ⟨after, hafter, rfl⟩⟩
  | alt first second ihfirst ihsecond =>
    rw [plain, Bool.and_eq_true] at h
    rw [Run, ihfirst h.1, ihsecond h.2]
    constructor
    · rintro (⟨word, hword, rfl⟩ | ⟨word, hword, rfl⟩)
      · exact ⟨word, Or.inl hword, rfl⟩
      · exact ⟨word, Or.inr hword, rfl⟩
    · rintro ⟨word, hword | hword, rfl⟩
      · exact Or.inl ⟨word, hword, rfl⟩
      · exact Or.inr ⟨word, hword, rfl⟩
  | iterate least most body ih =>
    constructor
    · rintro ⟨n, hleast, hmost, htimes⟩
      obtain ⟨word, hword, rfl⟩ := (times_iff fun s t ↦ ih h).mp htimes
      exact ⟨word, ⟨n, hleast, hmost, hword⟩, rfl⟩
    · rintro ⟨word, ⟨n, hleast, hmost, hword⟩, rfl⟩
      exact ⟨n, hleast, hmost, (times_iff fun s t ↦ ih h).mpr ⟨word, hword, rfl⟩⟩

/-! ### Pieces in turn -/

/-- Patterns one after the other. -/
def inTurn : List Pattern → Pattern
  | [] => .empty
  | first :: rest => .seq first (inTurn rest)

/-- The words of patterns one after the other. -/
def wordsInTurn (pieces : List Pattern) : Language Char := (pieces.map words).prod

variable {pieces bodies : List Pattern}

theorem words_inTurn : words (inTurn pieces) = wordsInTurn pieces := by
  induction pieces with
  | nil => rfl
  | cons first rest ih => rw [inTurn, words, ih, wordsInTurn, wordsInTurn, List.map_cons, List.prod_cons]

theorem run_inTurn (h : pieces.all plain = true) :
    Run whole (inTurn pieces) s t ↔ ∃ word ∈ wordsInTurn pieces, s = word ++ t := by
  have hplain : plain (inTurn pieces) = true := by
    induction pieces with
    | nil => rfl
    | cons first rest ih =>
      rw [List.all_cons, Bool.and_eq_true] at h
      rw [inTurn, plain, Bool.and_eq_true]
      exact ⟨h.1, ih h.2⟩
  rw [run_iff hplain, words_inTurn]

/-- Up to the end of the text there is nothing but the words. -/
theorem run_inTurn_stop (h : pieces.all plain = true) :
    Run whole (inTurn (pieces ++ [.stop])) s t ↔ t = [] ∧ s ∈ wordsInTurn pieces := by
  have happend (before after : List Pattern) (s t : Text) : Run whole (inTurn (before ++ after)) s t ↔
      ∃ u, Run whole (inTurn before) s u ∧ Run whole (inTurn after) u t := by
    induction before generalizing s with
    | nil => simp [inTurn, Run]
    | cons first before ih =>
      simp only [List.cons_append, inTurn, Run, ih]
      constructor
      · rintro ⟨u, hfirst, v, hbefore, hafter⟩
        exact ⟨v, ⟨u, hfirst, hbefore⟩, hafter⟩
      · rintro ⟨v, ⟨u, hfirst, hbefore⟩, hafter⟩
        exact ⟨u, hfirst, v, hbefore, hafter⟩
  rw [happend]
  constructor
  · rintro ⟨u, hpieces, v, ⟨rfl, rfl⟩, rfl⟩
    obtain ⟨word, hword, rfl⟩ := (run_inTurn h).mp hpieces
    rw [List.append_nil]
    exact ⟨rfl, hword⟩
  · rintro ⟨rfl, hword⟩
    exact ⟨[], (run_inTurn h).mpr ⟨s, hword, (List.append_nil s).symm⟩, [], ⟨rfl, rfl⟩, rfl⟩

/-- A pattern between the two anchors matches its words, those that each lookahead after the first anchor
lets through. -/
theorem matches_guarded (h : pieces.all plain = true) :
    Matches (inTurn (.start :: (bodies.map .ahead ++ (pieces ++ [.stop])))) text ↔
      (∀ body ∈ bodies, ¬∃ t, Run text body text t) ∧ text ∈ wordsInTurn pieces := by
  have hguards (s t : Text) : Run text (inTurn (bodies.map .ahead ++ (pieces ++ [.stop]))) s t ↔
      (∀ body ∈ bodies, ¬∃ u, Run text body s u) ∧ t = [] ∧ s ∈ wordsInTurn pieces := by
    induction bodies with
    | nil => simp [run_inTurn_stop h]
    | cons body bodies ih =>
      rw [List.map_cons, List.cons_append, inTurn, Run, List.forall_mem_cons, and_assoc, ← ih]
      constructor
      · rintro ⟨_, ⟨rfl, hbody⟩, hrest⟩
        exact ⟨hbody, hrest⟩
      · rintro ⟨hbody, hrest⟩
        exact ⟨s, ⟨rfl, hbody⟩, hrest⟩
  constructor
  · rintro ⟨s, -, t, u, ⟨rfl, rfl⟩, hrun⟩
    obtain ⟨hbodies, -, hword⟩ := (hguards _ t).mp hrun
    exact ⟨hbodies, hword⟩
  · rintro ⟨hbodies, hword⟩
    exact ⟨text, List.suffix_rfl, [], text, ⟨rfl, rfl⟩, (hguards text []).mpr ⟨hbodies, rfl, hword⟩⟩

theorem matches_anchored (h : pieces.all plain = true) :
    Matches (inTurn (.start :: (pieces ++ [.stop]))) text ↔ text ∈ wordsInTurn pieces := by
  have hguarded := @matches_guarded text pieces [] h
  rw [List.map_nil, List.nil_append] at hguarded
  rw [hguarded]
  exact and_iff_right fun _ hbody ↦ absurd hbody List.not_mem_nil

@[simp] theorem wordsInTurn_nil : wordsInTurn [] = 1 := rfl

theorem wordsInTurn_append {first rest : List Pattern} :
    wordsInTurn (first ++ rest) = wordsInTurn first * wordsInTurn rest := by
  rw [wordsInTurn, List.map_append, List.prod_append, ← wordsInTurn, ← wordsInTurn]

theorem mem_wordsInTurn_cons {first : Pattern} {rest : List Pattern} :
    word ∈ wordsInTurn (first :: rest) ↔
      ∃ before ∈ words first, ∃ after ∈ wordsInTurn rest, before ++ after = word := by
  rw [wordsInTurn, List.map_cons, List.prod_cons, Language.mem_mul]
  rfl

theorem wordsInTurn_singleton (first : Pattern) : wordsInTurn [first] = words first := by
  rw [wordsInTurn, List.map_singleton, List.prod_singleton]

/-- A pattern that may be left out. -/
theorem mem_optional :
    word ∈ words (.iterate 0 (some 1) body) ↔ word = [] ∨ word ∈ words body := by
  constructor
  · rintro ⟨n, -, hmost, hword⟩
    rcases Nat.le_one_iff_eq_zero_or_eq_one.mp (hmost 1 rfl) with rfl | rfl
    · rw [pow_zero, Language.mem_one] at hword
      exact Or.inl hword
    · rw [pow_one] at hword
      exact Or.inr hword
  · rintro (rfl | hword)
    · exact ⟨0, Nat.le_refl 0, fun m _ ↦ Nat.zero_le m, Language.nil_mem_one⟩
    · refine ⟨1, Nat.zero_le 1, ?_, by rwa [pow_one]⟩
      rintro _ ⟨⟩
      exact Nat.le_refl 1

/-! ### The words of a class -/

theorem mem_pow_set : word ∈ words (.set chars) ^ n ↔
    word.length = n ∧ ∀ c ∈ word, chars.has c = true := by
  induction n generalizing word with
  | zero => simp +contextual [Language.mem_one]
  | succ n ih =>
    rw [pow_succ', Language.mem_mul]
    constructor
    · rintro ⟨_, ⟨c, hc, rfl⟩, rest, hrest, rfl⟩
      obtain ⟨rfl, hall⟩ := ih.mp hrest
      exact ⟨rfl, List.forall_mem_cons.mpr ⟨hc, hall⟩⟩
    · rintro ⟨hlength, hall⟩
      cases word with
      | nil => cases hlength
      | cons c rest =>
        obtain ⟨hc, hrest⟩ := List.forall_mem_cons.mp hall
        exact ⟨[c], ⟨c, hc, rfl⟩, rest, ih.mpr ⟨Nat.succ.inj hlength, hrest⟩, rfl⟩

/-- A class that is iterated spells the words of its characters, of the lengths it may have. -/
theorem mem_iterate_set {least : ℕ} {most : Option ℕ} : word ∈ words (.iterate least most (.set chars)) ↔
    (least ≤ word.length ∧ ∀ m ∈ most, word.length ≤ m) ∧ ∀ c ∈ word, chars.has c = true := by
  constructor
  · rintro ⟨n, hleast, hmost, hword⟩
    obtain ⟨rfl, hall⟩ := mem_pow_set.mp hword
    exact ⟨⟨hleast, hmost⟩, hall⟩
  · rintro ⟨⟨hleast, hmost⟩, hall⟩
    exact ⟨word.length, hleast, hmost, mem_pow_set.mpr ⟨rfl, hall⟩⟩

theorem mem_iterate_one : word ∈ words (.iterate 1 none (.set chars)) ↔
    word ≠ [] ∧ ∀ c ∈ word, chars.has c = true := by
  rw [mem_iterate_set, ← List.length_pos_iff, Nat.lt_iff_add_one_le]
  exact and_congr_left fun _ ↦ and_iff_left fun _ hm ↦ nomatch hm

/-- A character of one class, and then the characters of another. -/
theorem mem_set_iterate {first rest : CharClass} {least : ℕ} {most : Option ℕ} :
    word ∈ wordsInTurn [.set first, .iterate least most (.set rest)] ↔
      ∃ c tail, word = c :: tail ∧ first.has c = true ∧
        (least ≤ tail.length ∧ ∀ m ∈ most, tail.length ≤ m) ∧ ∀ d ∈ tail, rest.has d = true := by
  rw [mem_wordsInTurn_cons, wordsInTurn_singleton]
  constructor
  · rintro ⟨_, ⟨c, hc, rfl⟩, tail, htail, rfl⟩
    obtain ⟨hlength, hall⟩ := mem_iterate_set.mp htail
    exact ⟨c, tail, rfl, hc, hlength, hall⟩
  · rintro ⟨c, tail, rfl, hc, hlength, hall⟩
    exact ⟨[c], ⟨c, hc, rfl⟩, tail, mem_iterate_set.mpr ⟨hlength, hall⟩, rfl⟩

/-! ### Words that are written out -/

@[simp] theorem has_only : (only c).has c = true := by
  simp [only, CharClass.has, Item.has]

theorem has_only_iff {d : Char} : (only c).has d = true ↔ d = c := by
  simp only [only, CharClass.has, Item.has, List.any_cons, List.any_nil, Bool.or_false, Bool.false_bne,
    Bool.and_eq_true, decide_eq_true_eq]
  rw [← Char.toNat_inj]
  omega

/-- A text as a pattern. -/
def literal (text : Text) : List Pattern := text.map fun c ↦ .set (only c)

theorem mem_wordsInTurn_literal : word ∈ wordsInTurn (literal text) ↔ word = text := by
  induction text generalizing word with
  | nil => exact Language.mem_one word
  | cons c text ih =>
    rw [literal, List.map_cons, ← literal, mem_wordsInTurn_cons]
    constructor
    · rintro ⟨_, ⟨d, hd, rfl⟩, after, hafter, rfl⟩
      rw [has_only_iff.mp hd, ih.mp hafter]
      rfl
    · rintro rfl
      exact ⟨[c], ⟨c, has_only, rfl⟩, text, ih.mpr rfl, rfl⟩

/-- Anything on one line, and then the words of a pattern. -/
theorem mem_wordsInTurn_dot : word ∈ wordsInTurn (.iterate 0 none (.set dot) :: pieces) ↔
    ∃ before after, '\n' ∉ before ∧ after ∈ wordsInTurn pieces ∧ word = before ++ after := by
  have hdot (c : Char) : dot.has c = true ↔ c ≠ '\n' := by
    rw [ne_eq, ← Char.toNat_inj]
    simp only [dot, CharClass.has, Item.has, List.any_cons, List.any_nil, Bool.or_false, Bool.true_bne,
      Bool.not_eq_true', Bool.and_eq_false_iff, decide_eq_false_iff_not]
    have hbreak : '\n'.toNat = 10 := rfl
    omega
  rw [mem_wordsInTurn_cons]
  constructor
  · rintro ⟨before, hbefore, after, hafter, rfl⟩
    refine ⟨before, after, fun hbreak ↦ ?_, hafter, rfl⟩
    exact (hdot _).mp ((mem_iterate_set.mp hbefore).2 _ hbreak) rfl
  · rintro ⟨before, after, hbefore, hafter, rfl⟩
    refine ⟨before, mem_iterate_set.mpr ⟨⟨Nat.zero_le _, fun _ hm ↦ nomatch hm⟩, fun c hc ↦ ?_⟩, after,
      hafter, rfl⟩
    exact (hdot c).mpr fun hbreak ↦ hbefore (hbreak ▸ hc)

/-- Words that each come after one character, so many of them. -/
theorem mem_iterate_led {least : ℕ} {most : Option ℕ} :
    word ∈ words (.iterate least most (inTurn [.set (only c), body])) ↔
      ∃ parts : List Text, (least ≤ parts.length ∧ ∀ m ∈ most, parts.length ≤ m) ∧
        (∀ part ∈ parts, part ∈ words body) ∧ word = parts.flatMap (c :: ·) := by
  have hled {part : Text} : part ∈ words (inTurn [.set (only c), body]) ↔
      ∃ rest ∈ words body, part = c :: rest := by
    have hwords : words (inTurn [.set (only c), body]) = words (.set (only c)) * words body := by
      show words (.set (only c)) * (words body * 1) = _
      rw [mul_one]
    rw [hwords, Language.mem_mul]
    constructor
    · rintro ⟨_, ⟨d, hd, rfl⟩, rest, hrest, rfl⟩
      rw [has_only_iff.mp hd]
      exact ⟨rest, hrest, rfl⟩
    · rintro ⟨rest, hrest, rfl⟩
      exact ⟨[c], ⟨c, has_only, rfl⟩, rest, hrest, rfl⟩
  have hpow (n : ℕ) (word : Text) : word ∈ words (inTurn [.set (only c), body]) ^ n ↔
      ∃ parts : List Text, parts.length = n ∧ (∀ part ∈ parts, part ∈ words body) ∧
        word = parts.flatMap (c :: ·) := by
    induction n generalizing word with
    | zero =>
      rw [pow_zero, Language.mem_one]
      constructor
      · rintro rfl
        exact ⟨[], rfl, List.forall_mem_nil _, rfl⟩
      · rintro ⟨parts, hlength, -, rfl⟩
        rw [List.length_eq_zero_iff.mp hlength, List.flatMap_nil]
    | succ n ih =>
      rw [pow_succ', Language.mem_mul]
      constructor
      · rintro ⟨_, hfirst, rest, hrest, rfl⟩
        obtain ⟨part, hpart, rfl⟩ := hled.mp hfirst
        obtain ⟨parts, rfl, hparts, rfl⟩ := (ih rest).mp hrest
        exact ⟨part :: parts, rfl, List.forall_mem_cons.mpr ⟨hpart, hparts⟩, List.flatMap_cons.symm⟩
      · rintro ⟨parts, hlength, hparts, rfl⟩
        cases parts with
        | nil => cases hlength
        | cons part parts =>
          obtain ⟨hpart, hrest⟩ := List.forall_mem_cons.mp hparts
          exact ⟨c :: part, hled.mpr ⟨part, hpart, rfl⟩, parts.flatMap (c :: ·),
            (ih _).mpr ⟨parts, Nat.succ.inj hlength, hrest, rfl⟩, List.flatMap_cons.symm⟩
  constructor
  · rintro ⟨n, hleast, hmost, hword⟩
    obtain ⟨parts, rfl, hparts, rfl⟩ := (hpow n word).mp hword
    exact ⟨parts, ⟨hleast, hmost⟩, hparts, rfl⟩
  · rintro ⟨parts, ⟨hleast, hmost⟩, hparts, rfl⟩
    exact ⟨parts.length, hleast, hmost, (hpow _ _).mpr ⟨parts, rfl, hparts, rfl⟩⟩

/-! ### Lookaheads -/

/-- A lookahead for one of a class at the start. -/
theorem led_iff :
    (∃ t, Run text (inTurn [.set chars]) text t) ↔ text.head?.any chars.has = true := by
  have hplain : [Pattern.set chars].all plain = true := rfl
  simp only [run_inTurn hplain, wordsInTurn_singleton, words]
  cases text with
  | nil =>
    refine iff_of_false ?_ Bool.false_ne_true
    rintro ⟨t, _, ⟨d, -, rfl⟩, hcons⟩
    cases hcons
  | cons c rest =>
    rw [List.head?_cons, Option.any_some]
    constructor
    · rintro ⟨t, _, ⟨d, hd, rfl⟩, hcons⟩
      cases hcons
      exact hd
    · exact fun hc ↦ ⟨rest, [c], ⟨c, hc, rfl⟩, rfl⟩

/-- A lookahead for a text anywhere on the line. -/
theorem held_iff (hbody : plain body = true) (hline : '\n' ∉ text) :
    (∃ t, Run text (inTurn [.iterate 0 none (.set dot), body]) text t) ↔
      ∃ word ∈ words body, word <:+: text := by
  have hplain : [Pattern.iterate 0 none (.set dot), body].all plain = true := by
    rw [List.all_cons, List.all_cons, hbody]
    rfl
  simp only [run_inTurn hplain, mem_wordsInTurn_dot, wordsInTurn_singleton]
  constructor
  · rintro ⟨t, _, ⟨before, word, -, hword, rfl⟩, htext⟩
    exact ⟨word, hword, before, t, htext.symm⟩
  · rintro ⟨word, hword, before, t, rfl⟩
    refine ⟨t, before ++ word, ⟨before, word, fun hmem ↦ hline ?_, hword, rfl⟩, rfl⟩
    exact List.mem_append_left _ (List.mem_append_left _ hmem)

/-- A lookahead for words at the end of the line. -/
theorem ended_iff (hpieces : pieces.all plain = true) (hline : '\n' ∉ text) :
    (∃ t, Run text (inTurn (.iterate 0 none (.set dot) :: (pieces ++ [.stop]))) text t) ↔
      ∃ word ∈ wordsInTurn pieces, word <:+ text := by
  have hplain : (Pattern.iterate 0 none (.set dot) :: pieces).all plain = true := by
    rw [List.all_cons, hpieces]
    rfl
  simp only [← List.cons_append, run_inTurn_stop hplain, mem_wordsInTurn_dot]
  constructor
  · rintro ⟨t, -, before, word, -, hword, rfl⟩
    exact ⟨word, hword, List.suffix_append before word⟩
  · rintro ⟨word, hword, before, rfl⟩
    exact ⟨[], rfl, before, word, fun hmem ↦ hline (List.mem_append_left _ hmem), hword, rfl⟩

/-- One of a class at the end. -/
theorem last_iff :
    (∃ word ∈ wordsInTurn [.set chars], word <:+ text) ↔ text.getLast?.any chars.has = true := by
  rw [wordsInTurn_singleton]
  constructor
  · rintro ⟨_, ⟨c, hc, rfl⟩, before, rfl⟩
    rw [List.getLast?_concat, Option.any_some]
    exact hc
  · intro h
    obtain ⟨c, hlast, hc⟩ := (Option.any_eq_true _ _).mp h
    obtain ⟨before, htext⟩ := List.getLast?_eq_some_iff.mp hlast
    exact ⟨[c], ⟨c, hc, rfl⟩, before, htext.symm⟩

end Nodal.Foundation.Regex
