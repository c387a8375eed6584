import Nodal.Foundation.Text

/-!
# The bytes of a text

A text as its bytes in UTF-8, and what is read of it where each byte is taken for a character. An
ASCII text is read as itself. No other text is, and where a misreading begins with the text that was
misread, the characters after it are among the four that misreadings of `Ã` are made of
(`misread_eq_append`).
-/

set_option autoImplicit false

namespace Nodal.Foundation.Text

/-! ### Bytes -/

/-- The bytes of a text. -/
def bytes (text : Text) : List UInt8 := text.flatMap String.utf8EncodeChar

@[simp] theorem bytes_nil : bytes [] = [] := rfl

theorem bytes_append (first second : Text) : bytes (first ++ second) = bytes first ++ bytes second :=
  List.flatMap_append

theorem bytes_cons (c : Char) (text : Text) : bytes (c :: text) = bytes [c] ++ bytes text :=
  bytes_append [c] text

/-- A text is known from its bytes. -/
theorem bytes_inj {first second : Text} : bytes first = bytes second ↔ first = second := by
  refine ⟨fun h ↦ ?_, congrArg _⟩
  have hencode (text : Text) : text.utf8Encode = (bytes text).toByteArray := rfl
  have hsame : first.utf8Encode = second.utf8Encode := by
    rw [hencode, hencode, h]
  have hread := congrArg ByteArray.utf8Decode? hsame
  rw [List.utf8Decode?_utf8Encode, List.utf8Decode?_utf8Encode] at hread
  exact congrArg Array.toList (Option.some.inj hread)

/-- An ASCII character is one byte. -/
theorem bytes_of_ascii {c : Char} (h : c.toNat < 128) : bytes [c] = [UInt8.ofNat c.toNat] := by
  have hle : c.val.toNat ≤ 0x7f := Nat.lt_succ_iff.mp h
  simp only [bytes, List.flatMap_cons, List.flatMap_nil, List.append_nil, String.utf8EncodeChar,
    if_pos hle]
  rfl

theorem length_bytes_of_ascii {text : Text} (h : ∀ c ∈ text, c.toNat < 128) :
    (bytes text).length = text.length := by
  induction text with
  | nil => rfl
  | cons c text ih =>
    obtain ⟨hc, htext⟩ := List.forall_mem_cons.mp h
    rw [bytes_cons, bytes_of_ascii hc, List.length_append, ih htext, List.length_singleton,
      List.length_cons]
    omega

/-- A character that is not ASCII has two bytes or more, none of them ASCII. -/
theorem bytes_of_not_ascii {c : Char} (h : 128 ≤ c.toNat) :
    2 ≤ (bytes [c]).length ∧ ∀ byte ∈ bytes [c], 128 ≤ byte.toNat := by
  have hlt : ¬ c.val.toNat ≤ 0x7f := Nat.not_le.mpr h
  simp only [bytes, List.flatMap_cons, List.flatMap_nil, List.append_nil, String.utf8EncodeChar,
    if_neg hlt]
  split_ifs <;> refine ⟨by simp, ?_⟩ <;>
    simp only [List.forall_mem_cons, List.not_mem_nil, false_implies, implies_true, and_true,
      UInt8.toNat_ofNat'] <;> omega

/-! ### A byte taken for a character -/

/-- The character with the number of a byte. -/
def latin (byte : UInt8) : Char := Char.ofNat byte.toNat

theorem toNat_latin (byte : UInt8) : (latin byte).toNat = byte.toNat := by
  have hvalid : byte.toNat.isValidChar := Or.inl (byte.toNat_lt.trans (by decide))
  rw [latin, Char.ofNat, dif_pos hvalid]
  rfl

/-- What is read of a text where each of its bytes is taken for a character. -/
def misread (text : Text) : Text := (bytes text).map latin

theorem misread_append (first second : Text) :
    misread (first ++ second) = misread first ++ misread second := by
  rw [misread, bytes_append, List.map_append, misread, misread]

theorem misread_cons (c : Char) (text : Text) : misread (c :: text) = misread [c] ++ misread text :=
  misread_append [c] text

theorem misread_of_ascii_char {c : Char} (h : c.toNat < 128) : misread [c] = [c] := by
  rw [misread, bytes_of_ascii h, List.map_singleton]
  congr 1
  apply Char.toNat_inj.mp
  rw [toNat_latin, UInt8.toNat_ofNat', Nat.mod_eq_of_lt (by omega)]

/-- An ASCII text is read as itself. -/
theorem misread_of_ascii {text : Text} (h : ∀ c ∈ text, c.toNat < 128) : misread text = text := by
  induction text with
  | nil => rfl
  | cons c text ih =>
    obtain ⟨hc, htext⟩ := List.forall_mem_cons.mp h
    rw [misread_cons, misread_of_ascii_char hc, ih htext, List.singleton_append]

/-! ### A misreading that begins with its own text -/

/-- The characters that misreadings of `Ã` are made of, over and over. -/
def recurring : List Char := [Char.ofNat 0xC2, Char.ofNat 0xC3, Char.ofNat 0x82, Char.ofNat 0x83]

theorem misread_of_recurring {c : Char} (h : c ∈ recurring) :
    (misread [c]).length = 2 ∧ ∀ d ∈ misread [c], d ∈ recurring := by
  have hall : recurring.all (fun c ↦ (misread [c]).length = 2 && (misread [c]).all (· ∈ recurring)) =
      true := by decide
  simpa using List.all_eq_true.mp hall c h

/-- A text of recurring characters is read as twice as many. -/
theorem misread_of_all_recurring {text : Text} (h : ∀ c ∈ text, c ∈ recurring) :
    (misread text).length = 2 * text.length ∧ ∀ d ∈ misread text, d ∈ recurring := by
  induction text with
  | nil => exact ⟨rfl, List.forall_mem_nil _⟩
  | cons c text ih =>
    obtain ⟨hc, htext⟩ := List.forall_mem_cons.mp h
    obtain ⟨hlength, hmem⟩ := misread_of_recurring hc
    rw [misread_cons]
    refine ⟨?_, ?_⟩
    · rw [List.length_append, hlength, (ih htext).1, List.length_cons]
      omega
    · intro d hd
      exact (List.mem_append.mp hd).elim (hmem d) ((ih htext).2 d)

/-- A character that is the first one its own misreading holds is recurring. -/
theorem recurring_of_misread_cons {c : Char} {rest : Text} (hc : 128 ≤ c.toNat)
    (h : misread [c] = c :: rest) : c ∈ recurring := by
  have hlt : ¬ c.val.toNat ≤ 0x7f := Nat.not_le.mpr hc
  have hread : c.toNat < 256 ∧ ∃ byte more, bytes [c] = byte :: more ∧ c.toNat = byte.toNat := by
    rw [misread] at h
    cases hbytes : bytes [c] with
    | nil => simp [hbytes] at h
    | cons byte more =>
      rw [hbytes, List.map_cons, List.cons.injEq] at h
      have hsame : c.toNat = byte.toNat := by rw [← h.1, toNat_latin]
      exact ⟨hsame ▸ byte.toNat_lt, byte, more, rfl, hsame⟩
  obtain ⟨hsmall, byte, more, hbytes, hsame⟩ := hread
  have hvalue : c.val.toNat = c.toNat := rfl
  have htwo : c.val.toNat ≤ 0x7ff := by omega
  simp only [bytes, List.flatMap_cons, List.flatMap_nil, List.append_nil, String.utf8EncodeChar,
    if_neg hlt, if_pos htwo, List.cons.injEq] at hbytes
  have hlead : byte.toNat = (c.toNat / 64 % 32 + 192) % 256 := by
    rw [← hbytes.1, UInt8.toNat_ofNat']
    rfl
  have hnumber : c.toNat = 0xC3 := by
    have hpage : c.toNat / 64 = 2 ∨ c.toNat / 64 = 3 := by omega
    rcases hpage with hpage | hpage <;> rw [hpage] at hlead <;> omega
  have hchar : c = Char.ofNat 0xC3 := Char.toNat_inj.mp (hnumber.trans (by decide))
  rw [hchar]
  decide

/-- Every character of a text its own misreading begins with is recurring, where the first is not
ASCII. The induction is on how many of them have been looked at: two are read of each. -/
theorem recurring_of_isPrefix {c : Char} {text : Text} (hc : 128 ≤ c.toNat)
    (h : c :: text <+: misread (c :: text)) (n : ℕ) :
    ∀ d ∈ (c :: text).take n, d ∈ recurring := by
  induction n with
  | zero => exact fun d hd ↦ absurd hd List.not_mem_nil
  | succ n ih =>
    cases n with
    | zero =>
      obtain ⟨hlength, -⟩ := bytes_of_not_ascii hc
      have hne : misread [c] ≠ [] := by
        intro hnil
        rw [misread, List.map_eq_nil_iff] at hnil
        simp [hnil] at hlength
      obtain ⟨d, rest, hread⟩ := List.exists_cons_of_ne_nil hne
      rw [misread_cons, hread, List.cons_append, List.cons_prefix_cons] at h
      have hself : misread [c] = c :: rest := by rw [hread, h.1]
      intro e he
      rw [Nat.zero_add, List.take_one, List.head?_cons, Option.toList_some, List.mem_singleton] at he
      exact he ▸ recurring_of_misread_cons hc hself
    | succ n =>
      set seen := (c :: text).take (n + 1) with hseen
      obtain ⟨hlength, hmem⟩ := misread_of_all_recurring ih
      have hparts : misread (c :: text) = misread seen ++ misread ((c :: text).drop (n + 1)) := by
        rw [← misread_append, hseen, List.take_append_drop]
      rcases Nat.lt_or_ge (n + 1) (c :: text).length with hmore | hall
      · have hseenlength : seen.length = n + 1 := by
          rw [hseen, List.length_take, Nat.min_eq_left hmore.le]
        have hnext : (c :: text).take (n + 2) <+: misread seen := by
          refine List.prefix_of_prefix_length_le ((List.take_prefix _ _).trans h)
            (hparts ▸ List.prefix_append _ _) ?_
          rw [List.length_take, hlength, hseenlength]
          omega
        exact fun d hd ↦ hmem d (hnext.subset hd)
      · rw [List.take_of_length_le (hall.trans (Nat.le_succ _))]
        rwa [hseen, List.take_of_length_le hall] at ih

/-- Where the misreading of a text begins with the text, the text is ASCII, or there is more after it
and all of that is recurring. -/
theorem misread_eq_append {text more : Text} (h : misread text = text ++ more) :
    (∀ c ∈ text, c.toNat < 128) ∨ (more ≠ [] ∧ ∀ c ∈ more, c ∈ recurring) := by
  induction text with
  | nil => exact Or.inl (List.forall_mem_nil _)
  | cons c text ih =>
    rcases Nat.lt_or_ge c.toNat 128 with hascii | hnot
    · rw [misread_cons, misread_of_ascii_char hascii, List.singleton_append, List.cons_append,
        List.cons.injEq] at h
      refine (ih h.2).imp_left ?_
      exact fun htext ↦ List.forall_mem_cons.mpr ⟨hascii, htext⟩
    · right
      have hall : ∀ d ∈ c :: text, d ∈ recurring := by
        have hprefixed := recurring_of_isPrefix hnot ⟨more, h.symm⟩ (c :: text).length
        rwa [List.take_length] at hprefixed
      obtain ⟨hlength, hmem⟩ := misread_of_all_recurring hall
      rw [h] at hlength hmem
      constructor
      · intro hnil
        rw [hnil, List.append_nil, List.length_cons] at hlength
        omega
      · exact fun d hd ↦ hmem d (List.mem_append_right _ hd)

/-- Only an ASCII text is read as itself. -/
theorem misread_eq_self_iff {text : Text} : misread text = text ↔ ∀ c ∈ text, c.toNat < 128 := by
  constructor
  · intro h
    have h' : misread text = text ++ [] := h.trans (List.append_nil _).symm
    exact (misread_eq_append h').resolve_right fun hmore ↦ hmore.1 rfl
  · exact misread_of_ascii

end Nodal.Foundation.Text
