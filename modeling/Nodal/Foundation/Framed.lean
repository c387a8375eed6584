import Mathlib.Algebra.GroupWithZero.Nat
import Mathlib.Data.List.Infix
import Mathlib.Tactic.Common

/-!
# Fields with their lengths before them

A number as so many bytes, the largest first (`bigEndian_inj`), and fields each after the eight bytes of
its length. The length says where a field ends, so a sequence of fields is known from its bytes
(`frames_inj`); a separator would have to be kept out of the fields.
-/

set_option autoImplicit false

namespace Nodal.Foundation.Framed

/-! ### Numbers as bytes -/

/-- The last bytes of a number, the largest first. -/
def bigEndian : ℕ → ℕ → List UInt8
  | 0, _ => []
  | count + 1, n => bigEndian count (n / 256) ++ [UInt8.ofNat n]

theorem bigEndian_succ (count n : ℕ) :
    bigEndian (count + 1) n = bigEndian count (n / 256) ++ [UInt8.ofNat n] := rfl

@[simp] theorem length_bigEndian (count n : ℕ) : (bigEndian count n).length = count := by
  induction count generalizing n with
  | zero => rfl
  | succ count ih => rw [bigEndian_succ, List.length_append, ih, List.length_singleton]

theorem toNat_ofNat_byte (n : ℕ) : (UInt8.ofNat n).toNat = n % 256 := by
  rw [UInt8.toNat_ofNat']

/-- A number is known from its bytes where it has no more than them. -/
theorem bigEndian_inj {count m n : ℕ} (hm : m < 256 ^ count) (hn : n < 256 ^ count) :
    bigEndian count m = bigEndian count n ↔ m = n := by
  refine ⟨fun h ↦ ?_, congrArg _⟩
  induction count generalizing m n with
  | zero => omega
  | succ count ih =>
    rw [bigEndian_succ, bigEndian_succ] at h
    obtain ⟨hrest, hlast⟩ := List.append_inj' h rfl
    have hbyte : m % 256 = n % 256 := by
      rw [← toNat_ofNat_byte, ← toNat_ofNat_byte, (List.cons.inj hlast).1]
    rw [pow_succ] at hm hn
    have hquotient : m / 256 = n / 256 :=
      ih (Nat.div_lt_of_lt_mul (by omega)) (Nat.div_lt_of_lt_mul (by omega)) hrest
    omega

/-- The number bytes are, the largest first. -/
def ofBigEndian (bytes : List UInt8) : ℕ := bytes.foldl (fun n byte ↦ 256 * n + byte.toNat) 0

theorem ofBigEndian_bigEndian {count n : ℕ} (h : n < 256 ^ count) :
    ofBigEndian (bigEndian count n) = n := by
  induction count generalizing n with
  | zero =>
    rw [pow_zero] at h
    exact (Nat.lt_one_iff.mp h).symm
  | succ count ih =>
    rw [pow_succ] at h
    have hrest : ofBigEndian (bigEndian count (n / 256)) = n / 256 := ih (Nat.div_lt_of_lt_mul (by omega))
    rw [ofBigEndian] at hrest ⊢
    rw [bigEndian_succ, List.foldl_append, hrest, List.foldl_cons, List.foldl_nil, toNat_ofNat_byte]
    omega

/-! ### Fields -/

/-- A field whose length eight bytes can say. -/
def Fits (field : List UInt8) : Prop := field.length < 256 ^ 8

instance (field : List UInt8) : Decidable (Fits field) :=
  inferInstanceAs (Decidable (_ < _))

/-- A field after the eight bytes of its length. -/
def frame (field : List UInt8) : List UInt8 := bigEndian 8 field.length ++ field

/-- Fields one after another. -/
def frames (fields : List (List UInt8)) : List UInt8 := fields.flatMap frame

@[simp] theorem frames_nil : frames [] = [] := rfl

@[simp] theorem frames_cons (field : List UInt8) (fields : List (List UInt8)) :
    frames (field :: fields) = frame field ++ frames fields :=
  List.flatMap_cons

@[simp] theorem frames_append (first second : List (List UInt8)) :
    frames (first ++ second) = frames first ++ frames second :=
  List.flatMap_append

/-- A field is known from bytes that begin with it, and so is what comes after it. -/
theorem frame_append_inj {first second after later : List UInt8} (hfirst : Fits first)
    (hsecond : Fits second) (h : frame first ++ after = frame second ++ later) :
    first = second ∧ after = later := by
  rw [frame, frame, List.append_assoc, List.append_assoc] at h
  obtain ⟨hlength, hrest⟩ := List.append_inj h (by simp)
  exact List.append_inj hrest ((bigEndian_inj hfirst hsecond).mp hlength)

theorem frame_append_ne_nil {field after : List UInt8} : frame field ++ after ≠ [] := by
  intro h
  have hlength := congrArg List.length h
  simp [frame] at hlength

/-- A sequence of fields is known from its bytes. -/
theorem frames_inj {first second : List (List UInt8)} (hfirst : ∀ field ∈ first, Fits field)
    (hsecond : ∀ field ∈ second, Fits field) : frames first = frames second ↔ first = second := by
  refine ⟨fun h ↦ ?_, congrArg _⟩
  induction first generalizing second with
  | nil =>
    cases second with
    | nil => rfl
    | cons field second => exact absurd h.symm frame_append_ne_nil
  | cons field first ih =>
    cases second with
    | nil => exact absurd h frame_append_ne_nil
    | cons other second =>
      obtain ⟨hfield, hfirst⟩ := List.forall_mem_cons.mp hfirst
      obtain ⟨hother, hsecond⟩ := List.forall_mem_cons.mp hsecond
      rw [frames_cons, frames_cons] at h
      obtain ⟨hsame, hrest⟩ := frame_append_inj hfield hother h
      rw [hsame, ih hfirst hsecond hrest]

/-- Records of so many fields are known from their fields one after another. -/
theorem flatMap_inj_of_length {α : Type} {fieldsOf : α → List (List UInt8)} {count : ℕ}
    (hcount : 0 < count) (hlength : ∀ a, (fieldsOf a).length = count)
    (hinj : Function.Injective fieldsOf) {first second : List α} :
    first.flatMap fieldsOf = second.flatMap fieldsOf ↔ first = second := by
  have hne (a : α) (rest : List (List UInt8)) : fieldsOf a ++ rest ≠ [] := by
    intro h
    have hnil := congrArg List.length h
    rw [List.length_append, hlength, List.length_nil] at hnil
    omega
  refine ⟨fun h ↦ ?_, congrArg _⟩
  induction first generalizing second with
  | nil =>
    cases second with
    | nil => rfl
    | cons b second => exact absurd h.symm (hne b _)
  | cons a first ih =>
    cases second with
    | nil => exact absurd h (hne a _)
    | cons b second =>
      rw [List.flatMap_cons, List.flatMap_cons] at h
      obtain ⟨hsame, hrest⟩ := List.append_inj h ((hlength a).trans (hlength b).symm)
      rw [hinj hsame, ih hrest]

/-! ### Hexadecimal -/

/-- One digit of a nibble, lower case. -/
def nibble (value : ℕ) : Char := if value < 10 then Char.ofNat (48 + value) else Char.ofNat (87 + value)

/-- The lower-case hexadecimal of bytes. -/
def hex (digits : List UInt8) : List Char :=
  digits.flatMap fun byte ↦ [nibble (byte.toNat / 16), nibble (byte.toNat % 16)]

theorem nibble_inj {m n : ℕ} (hm : m < 16) (hn : n < 16) : nibble m = nibble n ↔ m = n := by
  have hall : ∀ i j : Fin 16, nibble i = nibble j → i = j := by decide
  exact ⟨fun h ↦ congrArg Fin.val (hall ⟨m, hm⟩ ⟨n, hn⟩ h), congrArg _⟩

theorem hex_cons (byte : UInt8) (digits : List UInt8) :
    hex (byte :: digits) = nibble (byte.toNat / 16) :: nibble (byte.toNat % 16) :: hex digits := rfl

/-- Whether a character is a lower-case hexadecimal digit. -/
def isHexDigit (c : Char) : Bool :=
  ('0'.toNat ≤ c.toNat ∧ c.toNat ≤ '9'.toNat) ∨ ('a'.toNat ≤ c.toNat ∧ c.toNat ≤ 'f'.toNat)

theorem isHexDigit_nibble {n : ℕ} (h : n < 16) : isHexDigit (nibble n) = true := by
  have hall : ∀ i : Fin 16, isHexDigit (nibble i) = true := by decide
  exact hall ⟨n, h⟩

theorem length_hex (digits : List UInt8) : (hex digits).length = 2 * digits.length := by
  induction digits with
  | nil => rfl
  | cons byte digits ih =>
    rw [hex_cons, List.length_cons, List.length_cons, List.length_cons, ih]
    omega

theorem isHexDigit_of_mem_hex {digits : List UInt8} {c : Char} (h : c ∈ hex digits) :
    isHexDigit c = true := by
  obtain ⟨byte, -, hc⟩ := List.mem_flatMap.mp h
  have hlt := byte.toNat_lt
  rcases List.mem_cons.mp hc with rfl | hc
  · exact isHexDigit_nibble (by omega)
  · rw [List.mem_singleton.mp hc]
    exact isHexDigit_nibble (by omega)

theorem hex_inj {first second : List UInt8} : hex first = hex second ↔ first = second := by
  refine ⟨fun h ↦ ?_, congrArg _⟩
  induction first generalizing second with
  | nil =>
    have hlength := congrArg List.length h
    rw [length_hex, length_hex, List.length_nil] at hlength
    exact (List.length_eq_zero_iff.mp (by omega)).symm
  | cons byte first ih =>
    cases second with
    | nil => cases h
    | cons other second =>
      have hbyte := byte.toNat_lt
      have hother := other.toNat_lt
      rw [hex_cons, hex_cons, List.cons.injEq, List.cons.injEq] at h
      obtain ⟨hhigh, hlow, hrest⟩ := h
      rw [nibble_inj (by omega) (by omega)] at hhigh hlow
      have hsame : byte = other := UInt8.toNat_inj.mp (by omega)
      rw [hsame, ih hrest]

end Nodal.Foundation.Framed
