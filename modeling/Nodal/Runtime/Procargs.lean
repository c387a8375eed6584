import Mathlib.Algebra.GroupWithZero.Nat
import Mathlib.Algebra.Ring.Int.Defs
import Mathlib.Data.List.Infix
import Mathlib.Data.List.Induction
import Mathlib.Tactic.Common
import Nodal.Foundation.Framed

/-!
# The arguments and the variables of a process, from the kernel's buffer

`split_procargs` of `runtime/processes.rs`. The kernel writes the argument count, the program's path, zero
bytes up to the next boundary, the arguments and the variables, and ends each record with a zero byte. The
code passes over every zero byte after the path, so it cannot tell the padding from an empty first argument:
the two blocks it answers are the process's own exactly when the first record there is has a byte in it
(`splitProcargs_layout_iff`). Whatever the bytes are, the two blocks are one after the other in the buffer
(`splitProcargs_inside`).
-/

set_option autoImplicit false

namespace Nodal.Runtime.Procargs

open Foundation.Framed

abbrev Bytes := List UInt8

/-! ### The code -/

/-- The order in which the host keeps the bytes of a number. -/
inductive Endian
  | little
  | big

/-- The bytes of a number between the host's order and the one with the largest first. -/
def Endian.largestFirst : Endian → Bytes → Bytes
  | little, bytes => bytes.reverse
  | big, bytes => bytes

@[simp] theorem Endian.largestFirst_largestFirst (endian : Endian) (bytes : Bytes) :
    endian.largestFirst (endian.largestFirst bytes) = bytes := by
  cases endian with
  | little => exact List.reverse_reverse bytes
  | big => rfl

@[simp] theorem Endian.length_largestFirst (endian : Endian) (bytes : Bytes) :
    (endian.largestFirst bytes).length = bytes.length := by
  cases endian with
  | little => exact List.length_reverse
  | big => rfl

/-- `i32::from_ne_bytes`. -/
def fromNeBytes (endian : Endian) (bytes : Bytes) : ℤ :=
  let n := ofBigEndian (endian.largestFirst bytes)
  if n < 2 ^ 31 then n else n - 2 ^ 32

/-- `usize::try_from`, of an `i32`. -/
def usizeTryFrom (n : ℤ) : Option ℕ := if 0 ≤ n then some n.toNat else none

/-- `split_first_chunk::<4>`. -/
def splitFirstChunk (block : Bytes) : Option (Bytes × Bytes) :=
  if 4 ≤ block.length then some (block.take 4, block.drop 4) else none

/-- `get(start..)`. -/
def getFrom (bytes : Bytes) (start : ℕ) : Option Bytes :=
  if start ≤ bytes.length then some (bytes.drop start) else none

/-- `get(..stop)`. -/
def getTo (bytes : Bytes) (stop : ℕ) : Option Bytes :=
  if stop ≤ bytes.length then some (bytes.take stop) else none

/-- `split_at_checked`. -/
def splitAtChecked (bytes : Bytes) (middle : ℕ) : Option (Bytes × Bytes) :=
  if middle ≤ bytes.length then some (bytes.take middle, bytes.drop middle) else none

/-- Where the first zero byte from `start` is, counted from there. -/
def terminator (bytes : Bytes) (start : ℕ) : Option ℕ :=
  (getFrom bytes start).bind (·.findIdx? (· = 0))

/-- The loop over the arguments. -/
def argumentsEnd (rest : Bytes) : ℕ → ℕ → Option ℕ
  | 0, arguments => some arguments
  | count + 1, arguments =>
    (terminator rest arguments).bind fun length ↦ argumentsEnd rest count (arguments + (length + 1))

theorem terminator_lt {bytes : Bytes} {start length : ℕ} (h : terminator bytes start = some length) :
    start + length < bytes.length := by
  rw [terminator, getFrom] at h
  split at h
  · have hlt := (List.findIdx?_eq_some_iff_findIdx_eq.mp h).1
    rw [List.length_drop] at hlt
    omega
  · cases h

/-- The loop over the variables, which ends at the first empty record. -/
def variablesEnd (tail : Bytes) (passed : ℕ) : ℕ :=
  match h : terminator tail passed with
  | none => passed
  | some 0 => passed
  | some (length + 1) => variablesEnd tail (passed + (length + 1 + 1))
  termination_by tail.length - passed
  decreasing_by
    have hlt := terminator_lt h
    omega

/-- `split_procargs`, from the first argument on. -/
def splitRecords (count : ℕ) (rest : Bytes) : Option (Bytes × Bytes) := do
  let arguments ← argumentsEnd rest count 0
  let (argv, tail) ← splitAtChecked rest arguments
  let environ ← getTo tail (variablesEnd tail 0)
  some (argv, environ)

def splitProcargs (endian : Endian) (block : Bytes) : Option (Bytes × Bytes) := do
  let (count, rest) ← splitFirstChunk block
  let count ← usizeTryFrom (fromNeBytes endian count)
  let path ← rest.findIdx? (· = 0)
  let rest ← getFrom rest path
  let padded ← rest.findIdx? (· ≠ 0)
  let rest ← getFrom rest padded
  splitRecords count rest

/-! ### The buffer -/

/-- Records that each end with a zero byte. -/
def records (rows : List Bytes) : Bytes := rows.flatMap (· ++ [0])

/-- What the kernel lays out: the program's path, the arguments and the variables of a process, and after
the empty record that ends them the kernel's own. -/
structure Image where
  path : Bytes
  arguments : List Bytes
  environ : List Bytes
  own : List Bytes
  path_text : 0 ∉ path
  arguments_text : ∀ argument ∈ arguments, 0 ∉ argument
  environ_text : ∀ row ∈ environ, row ≠ [] ∧ 0 ∉ row
  counted : arguments.length < 2 ^ 31

namespace Image

variable (image : Image)

/-- A count as the host keeps it. -/
def countBytes (endian : Endian) : Bytes := endian.largestFirst (bigEndian 4 image.arguments.length)

/-- The zero bytes after the one that ends the path, to the next boundary of eight bytes. -/
def padding : Bytes := List.replicate ((8 - (image.path.length + 1) % 8) % 8) 0

/-- The bytes from the first argument on. -/
def body : Bytes :=
  records image.arguments ++ records image.environ ++ 0 :: records image.own

def layout (endian : Endian) : Bytes :=
  image.countBytes endian ++ (image.path ++ 0 :: (image.padding ++ image.body))

end Image

/-! ### What the reading takes -/

section Reading

variable {bytes rest before after argv environ block : Bytes} {rows : List Bytes} {count : ℕ}

@[simp] theorem records_nil : records [] = [] := rfl

@[simp] theorem records_cons (row : Bytes) (rows : List Bytes) :
    records (row :: rows) = row ++ 0 :: records rows := by
  rw [records, List.flatMap_cons, List.append_assoc, List.singleton_append, records]

theorem records_append (rows others : List Bytes) :
    records (rows ++ others) = records rows ++ records others := List.flatMap_append

@[simp] theorem getFrom_append : getFrom (before ++ rest) before.length = some rest := by
  rw [getFrom, if_pos (by simp), List.drop_left]

theorem getFrom_suffix {start : ℕ} (h : getFrom bytes start = some rest) : rest <:+ bytes := by
  rw [getFrom] at h
  split at h
  · cases h
    exact List.drop_suffix start bytes
  · cases h

/-- A record is read up to the zero byte that ends it. -/
theorem findIdx?_record {row : Bytes} (h : 0 ∉ row) :
    (row ++ 0 :: rest).findIdx? (· = 0) = some row.length := by
  induction row with
  | nil => rfl
  | cons byte row ih =>
    rw [List.mem_cons, not_or] at h
    rw [List.cons_append, List.findIdx?_cons, if_neg (by simpa using fun hzero ↦ h.1 hzero.symm), ih h.2]
    rfl

theorem terminator_record {row : Bytes} (h : 0 ∉ row) :
    terminator (before ++ (row ++ 0 :: rest)) before.length = some row.length := by
  rw [terminator, getFrom_append, Option.bind_some, findIdx?_record h]

/-- The loop over the arguments passes over as many records as it is told.

Assumes: no record has a zero byte in it. -/
theorem argumentsEnd_records (h : ∀ row ∈ rows, 0 ∉ row) :
    argumentsEnd (before ++ (records rows ++ after)) rows.length before.length =
      some (before ++ records rows).length := by
  induction rows generalizing before with
  | nil => simp [argumentsEnd]
  | cons row rows ih =>
    obtain ⟨hrow, hrows⟩ := List.forall_mem_cons.mp h
    have hrest : before ++ (records (row :: rows) ++ after) =
        (before ++ (row ++ [0])) ++ (records rows ++ after) := by simp
    have hlength : before.length + (row.length + 1) = (before ++ (row ++ [0])).length := by simp
    rw [List.length_cons, argumentsEnd, records_cons, List.append_assoc, List.cons_append,
      terminator_record hrow, Option.bind_some, hlength]
    have hnext := @ih (before ++ (row ++ [0])) hrows
    simp only [List.append_assoc, List.cons_append, List.nil_append] at hnext ⊢
    rw [hnext]

theorem variablesEnd_of_empty {tail : Bytes} {passed : ℕ} (h : terminator tail passed = some 0) :
    variablesEnd tail passed = passed := by
  rw [variablesEnd]
  split
  · rfl
  · rfl
  · next heq => rw [h] at heq; cases heq

theorem variablesEnd_of_record {tail : Bytes} {passed length : ℕ}
    (h : terminator tail passed = some (length + 1)) :
    variablesEnd tail passed = variablesEnd tail (passed + (length + 1 + 1)) := by
  rw [variablesEnd]
  split
  · next heq => rw [h] at heq; cases heq
  · next heq => rw [h] at heq; cases heq
  · next heq => rw [h] at heq; cases heq; rfl

/-- The loop over the variables ends at the empty record after them. -/
theorem variablesEnd_records (h : ∀ row ∈ rows, row ≠ [] ∧ 0 ∉ row) :
    variablesEnd (before ++ (records rows ++ 0 :: after)) before.length =
      (before ++ records rows).length := by
  induction rows generalizing before with
  | nil =>
    rw [records_nil, List.append_nil]
    exact variablesEnd_of_empty (@terminator_record after before [] List.not_mem_nil)
  | cons row rows ih =>
    obtain ⟨⟨hne, hrow⟩, hrows⟩ := List.forall_mem_cons.mp h
    obtain ⟨byte, row, rfl⟩ := List.exists_cons_of_ne_nil hne
    have hends := @terminator_record (records rows ++ 0 :: after) before (byte :: row) hrow
    have hnext := @ih (before ++ (byte :: row ++ [0])) hrows
    have hlength : before.length + (row.length + 1 + 1) = (before ++ (byte :: row ++ [0])).length := by
      simp
    have happend : before ++ (records ((byte :: row) :: rows) ++ 0 :: after) =
        before ++ (byte :: row ++ 0 :: (records rows ++ 0 :: after)) := by simp
    rw [happend, variablesEnd_of_record hends, hlength]
    simp only [records_cons, List.append_assoc, List.cons_append, List.nil_append] at hnext ⊢
    exact hnext

theorem le_variablesEnd (tail : Bytes) (passed : ℕ) : passed ≤ variablesEnd tail passed := by
  induction passed using variablesEnd.induct tail with
  | case1 passed h =>
    rw [variablesEnd]
    split <;> simp_all
  | case2 passed h => rw [variablesEnd_of_empty h]
  | case3 passed length h ih =>
    rw [variablesEnd_of_record h]
    omega

/-- The two blocks are one after the other. -/
theorem splitRecords_inside (h : splitRecords count rest = some (argv, environ)) :
    ∃ after, rest = argv ++ environ ++ after := by
  simp only [splitRecords, Option.bind_eq_bind, Option.bind_eq_some_iff] at h
  obtain ⟨ended, -, ⟨first, tail⟩, hsplit, later, hto, hsome⟩ := h
  rw [splitAtChecked] at hsplit
  rw [getTo] at hto
  split at hsplit
  · split at hto
    · cases hsplit
      cases hto
      cases hsome
      exact ⟨(rest.drop ended).drop _, by rw [List.append_assoc, List.take_append_drop, List.take_append_drop]⟩
    · cases hto
  · cases hsplit

/-- The zero bytes there are to pass over. -/
theorem findIdx?_getFrom (bytes : Bytes) : (bytes.findIdx? (· ≠ 0)).bind (getFrom bytes) =
    if bytes.dropWhile (· = 0) = [] then none else some (bytes.dropWhile (· = 0)) := by
  induction bytes with
  | nil => rfl
  | cons byte bytes ih =>
    by_cases hzero : byte = 0
    · have hstep (start : ℕ) : getFrom (byte :: bytes) (start + 1) = getFrom bytes start := by
        simp [getFrom]
      rw [List.findIdx?_cons, if_neg (by simpa using hzero), Option.bind_map,
        List.dropWhile_cons_of_pos (by simpa using hzero), ← ih]
      exact congrArg _ (funext hstep)
    · rw [List.findIdx?_cons, if_pos (by simpa using hzero),
        List.dropWhile_cons_of_neg (by simpa using hzero), if_neg (List.cons_ne_nil _ _)]
      rfl

end Reading

namespace Image

variable (image : Image) (endian : Endian)

theorem fromNeBytes_countBytes :
    fromNeBytes endian (image.countBytes endian) = image.arguments.length := by
  have hcounted := image.counted
  have hread : ofBigEndian (bigEndian 4 image.arguments.length) = image.arguments.length :=
    ofBigEndian_bigEndian (by omega)
  rw [fromNeBytes, countBytes, Endian.largestFirst_largestFirst, hread, if_pos hcounted]

/-- What the code reads of the buffer: everything from the first byte after the path that is not zero. -/
theorem splitProcargs_eq : splitProcargs endian (image.layout endian) =
    if image.body.dropWhile (· = 0) = [] then none
    else splitRecords image.arguments.length (image.body.dropWhile (· = 0)) := by
  have hfour : (image.countBytes endian).length = 4 := by simp [countBytes]
  have hchunk : splitFirstChunk (image.layout endian) =
      some (image.countBytes endian, image.path ++ 0 :: (image.padding ++ image.body)) := by
    rw [splitFirstChunk, layout, if_pos (by rw [List.length_append]; omega), ← hfour, List.take_left,
      List.drop_left]
  have hcount : usizeTryFrom (image.arguments.length : ℤ) = some image.arguments.length := by
    rw [usizeTryFrom, if_pos (by omega), Int.toNat_natCast]
  have hzeros : (0 :: (image.padding ++ image.body)).dropWhile (· = 0) =
      image.body.dropWhile (· = 0) := by
    rw [List.dropWhile_cons_of_pos (by simp), padding, List.dropWhile_append_of_pos (by simp)]
  simp only [splitProcargs, hchunk, fromNeBytes_countBytes, hcount, Option.bind_eq_bind, Option.bind_some,
    findIdx?_record image.path_text, getFrom_append]
  rw [← Option.bind_assoc, findIdx?_getFrom, hzeros]
  split <;> rfl

/-- The records are read as they were laid out when the reading begins at the first of them. -/
theorem splitRecords_body : splitRecords image.arguments.length image.body =
    some (records image.arguments, records image.environ) := by
  have hargv := @argumentsEnd_records [] (records image.environ ++ 0 :: records image.own)
    image.arguments image.arguments_text
  have henviron := @variablesEnd_records [] (records image.own) image.environ image.environ_text
  rw [List.nil_append, List.nil_append, ← List.append_assoc, List.length_nil] at hargv
  rw [List.nil_append, List.nil_append, List.length_nil] at henviron
  rw [splitRecords, body, hargv]
  simp only [splitAtChecked, getTo, Option.bind_eq_bind, Option.bind_some, List.append_assoc,
    List.length_append, Nat.le_add_right, if_true, List.take_left, List.drop_left, henviron]

/-- The first record after the path has a byte in it. -/
def Begins : Prop := ∃ row, (image.arguments ++ image.environ).head? = some row ∧ row ≠ []

end Image

/-! ### When the blocks are the process's own -/

theorem dropWhile_ne_zero_cons (bytes rest : Bytes) : bytes.dropWhile (· = 0) ≠ 0 :: rest := by
  intro h
  have hhead := List.head?_dropWhile_not (· = 0) bytes
  rw [h] at hhead
  simp at hhead

/-- Bytes that end a sequence of records have a zero byte. -/
theorem zero_mem_of_suffix {bytes : Bytes} {rows : List Bytes} (h : bytes <:+ 0 :: records rows)
    (hne : bytes ≠ []) : 0 ∈ bytes := by
  have hlast : ∃ front, 0 :: records rows = front ++ [0] := by
    cases rows using List.reverseRecOn with
    | nil => exact ⟨[], rfl⟩
    | append_singleton rows row => exact ⟨0 :: records rows ++ row, by simp [records]⟩
  obtain ⟨front, hfront⟩ := hlast
  rw [hfront, List.suffix_concat_iff] at h
  obtain ⟨more, rfl, -⟩ := h.resolve_left hne
  exact List.mem_append_right more (List.mem_singleton_self 0)

/-- With no records of its own the process is answered something else. -/
theorem splitRecords_zero_ne {rest : Bytes} (hne : rest ≠ []) (hhead : ∀ later, rest ≠ 0 :: later)
    (hzero : 0 ∈ rest) : splitRecords 0 rest ≠ some ([], []) := by
  obtain ⟨byte, later, rfl⟩ := List.exists_cons_of_ne_nil hne
  have hbyte : byte ≠ 0 := by
    rintro rfl
    exact hhead later rfl
  have hlater : 0 ∈ later := (List.mem_cons.mp hzero).resolve_left (Ne.symm hbyte)
  obtain ⟨length, hlength⟩ : ∃ length, terminator (byte :: later) 0 = some (length + 1) := by
    have hfound : (later.findIdx? (· = 0)).isSome = true := by
      rw [List.findIdx?_isSome]
      exact List.any_eq_true.mpr ⟨0, hlater, by simp⟩
    obtain ⟨length, hlength⟩ := Option.isSome_iff_exists.mp hfound
    refine ⟨length, ?_⟩
    rw [terminator, getFrom, if_pos (Nat.zero_le _), List.drop_zero, Option.bind_some, List.findIdx?_cons,
      if_neg (by simpa using hbyte), hlength]
    rfl
  have hends : 1 ≤ variablesEnd (byte :: later) 0 := by
    rw [variablesEnd_of_record hlength]
    exact Nat.le_trans (by omega) (le_variablesEnd _ _)
  intro h
  simp only [splitRecords, argumentsEnd, splitAtChecked, getTo, Nat.zero_le, if_true, List.take_zero,
    List.drop_zero, Option.bind_eq_bind, Option.bind_some, Option.bind_eq_some_iff] at h
  obtain ⟨environ, hto, hsome⟩ := h
  split at hto
  · cases hto
    simp only [Option.some.injEq, Prod.mk.injEq, List.take_eq_nil_iff] at hsome
    rcases hsome.2 with hnone | hnil
    · omega
    · cases hnil
  · cases hto

variable {endian : Endian} {block argv environ : Bytes}

/-- The arguments and the variables are answered exactly when the first record has a byte in it. -/
theorem splitProcargs_layout_iff (image : Image) : splitProcargs endian (image.layout endian) =
    some (records image.arguments, records image.environ) ↔ image.Begins := by
  rw [image.splitProcargs_eq]
  constructor
  · intro h
    split at h
    · cases h
    next hne =>
    obtain ⟨after, hrest⟩ := splitRecords_inside h
    rw [Image.Begins]
    cases harguments : image.arguments with
    | cons first others =>
      refine ⟨first, rfl, ?_⟩
      rintro rfl
      rw [harguments, records_cons, List.nil_append] at hrest
      exact dropWhile_ne_zero_cons _ _ hrest
    | nil =>
      cases henviron : image.environ with
      | cons row rows =>
        exact ⟨row, rfl, (image.environ_text row (by rw [henviron]; exact List.mem_cons_self)).1⟩
      | nil =>
        have hbody : image.body = 0 :: records image.own := by
          rw [Image.body, harguments, henviron]
          rfl
        rw [harguments, henviron] at h
        have hsuffix : image.body.dropWhile (· = 0) <:+ 0 :: records image.own := by
          rw [← hbody]
          exact List.dropWhile_suffix _
        exact absurd h (splitRecords_zero_ne hne (fun later ↦ dropWhile_ne_zero_cons _ later)
          (zero_mem_of_suffix hsuffix hne))
  · rintro ⟨row, hhead, hne⟩
    obtain ⟨byte, row, rfl⟩ := List.exists_cons_of_ne_nil hne
    have hmem : byte :: row ∈ image.arguments ++ image.environ := List.mem_of_mem_head? hhead
    have hzero : byte ≠ 0 := by
      rintro rfl
      rcases List.mem_append.mp hmem with hargument | hvariable
      · exact image.arguments_text _ hargument List.mem_cons_self
      · exact (image.environ_text _ hvariable).2 List.mem_cons_self
    obtain ⟨later, hbody⟩ : ∃ later, image.body = byte :: later := by
      obtain ⟨rows, hrows⟩ := List.head?_eq_some_iff.mp hhead
      refine ⟨row ++ 0 :: records rows ++ 0 :: records image.own, ?_⟩
      rw [Image.body, ← records_append, hrows, records_cons]
      rfl
    have hkept : image.body.dropWhile (· = 0) = image.body := by
      rw [hbody, List.dropWhile_cons_of_neg (by simpa using hzero)]
    rw [hkept, if_neg (by rw [hbody]; exact List.cons_ne_nil _ _), image.splitRecords_body]

/-- The two blocks are one after the other in the buffer, whatever its bytes are. -/
theorem splitProcargs_inside (h : splitProcargs endian block = some (argv, environ)) :
    argv ++ environ <:+: block := by
  simp only [splitProcargs, Option.bind_eq_bind, Option.bind_eq_some_iff] at h
  obtain ⟨⟨count, rest⟩, hchunk, _, -, path, -, fromPath, hpath, padded, -, fromFirst, hfirst, h⟩ := h
  have hrest : rest <:+ block := by
    rw [splitFirstChunk] at hchunk
    split at hchunk
    · cases hchunk
      exact List.drop_suffix 4 block
    · cases hchunk
  obtain ⟨before, rfl⟩ := ((getFrom_suffix hfirst).trans (getFrom_suffix hpath)).trans hrest
  obtain ⟨after, rfl⟩ := splitRecords_inside h
  exact ⟨before, after, by simp only [List.append_assoc]⟩

/-- The two blocks are the process's own arguments and variables exactly when the first record has a byte in
it, and on any bytes they are parts of the buffer. -/
theorem splitProcargs_exact (endian : Endian) :
    (∀ image : Image, splitProcargs endian (image.layout endian) =
      some (records image.arguments, records image.environ) ↔ image.Begins) ∧
    ∀ block argv environ, splitProcargs endian block = some (argv, environ) → argv ++ environ <:+: block :=
  ⟨splitProcargs_layout_iff, fun _ _ _ h ↦ splitProcargs_inside h⟩

/-- A program started with a name and one argument. -/
def named : Image where
  path := [47]
  arguments := [[115], []]
  environ := [[78, 61]]
  own := []
  path_text := by decide
  arguments_text := by decide
  environ_text := by decide
  counted := by decide

theorem splitProcargs_exact_named :
    splitProcargs .little (named.layout .little) = some ([115, 0, 0], [78, 61, 0]) ∧
      [115, 0, 0] ++ [78, 61, 0] <:+: named.layout .little := by
  have h := (splitProcargs_exact .little).1 named |>.mpr ⟨[115], rfl, by decide⟩
  exact ⟨h, (splitProcargs_exact .little).2 _ _ _ h⟩

/-- A program started with an empty first argument, whose home is in its variables. -/
def emptyFirst : Image where
  path := [47]
  arguments := [[], [97]]
  environ := [[78, 61]]
  own := []
  path_text := by decide
  arguments_text := by decide
  environ_text := by decide
  counted := by decide

/-- Its variable is answered as an argument. -/
theorem emptyFirst_shifted : splitProcargs .little (emptyFirst.layout .little) =
      some ([97, 0, 78, 61, 0], []) ∧
    ([97, 0, 78, 61, 0], []) ≠ (records emptyFirst.arguments, records emptyFirst.environ) := by
  refine ⟨?_, by decide⟩
  have hbody : emptyFirst.body.dropWhile (· = 0) = [97, 0, 78, 61, 0, 0] := rfl
  have hargv : argumentsEnd [97, 0, 78, 61, 0, 0] emptyFirst.arguments.length 0 = some 5 := rfl
  have hends : variablesEnd [0] 0 = 0 := variablesEnd_of_empty rfl
  rw [emptyFirst.splitProcargs_eq, hbody, if_neg (by decide), splitRecords, hargv]
  show (getTo [0] (variablesEnd [0] 0)).bind (fun environ ↦ some ([97, 0, 78, 61, 0], environ)) = _
  rw [hends]
  rfl

end Nodal.Runtime.Procargs
