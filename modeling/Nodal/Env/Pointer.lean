import Nodal.Foundation.Find
import Nodal.Foundation.Lines

/-!
# The line in a vendor file

`context/pointer.rs` puts one line into `CLAUDE.md` and `AGENTS.md`, and `env/files.rs` takes it out
again when Nodal leaves a home. The writer ends the text with a newline and puts a blank line before its
own; the remover keeps the lines that are not Nodal's, joins them with newlines, and deletes a file
whose lines are all blank.

The blank line is never taken out, and a blank file is deleted, so no file of a person's comes back as
it was (`not_traceless`). What comes back is each line of the file with a newline after it, and one
blank line more (`unpoint_amended`).
-/

set_option autoImplicit false

namespace Nodal.Pointer

open Foundation Foundation.Text

/-! ### The two writers -/

/-- What marks the line as Nodal's, so the next write replaces it. -/
def MARK : Text := "<!-- nodal -->".toList

/-- The line itself. -/
def LINE : Text :=
  ("<!-- nodal --> Read `WORKUNIT.md` first: nodal writes this unit's objective, branch, " ++
    "changed files and every other open unit into it, and writes it again on every command.").toList

/-- Whether a line is one Nodal wrote. -/
def isPointer (line : Text) : Bool := MARK.isPrefixOf (trimStart line)

/-- Every file Nodal writes ends with a newline. -/
def withFinalNewline (text : Text) : Text :=
  if text.getLast? = some '\n' then text else text ++ ['\n']

/-- The file's text with the pointer in it, exactly once. -/
def amended : Option Text → Text
  | none => LINE ++ ['\n']
  | some text =>
    if (lines text).any isPointer then
      withFinalNewline (List.intercalate ['\n']
        ((lines text).map fun line ↦ if isPointer line then LINE else line))
    else
      let ended := withFinalNewline text
      let parted := if trim ended = [] then ended else ended ++ ['\n']
      parted ++ LINE ++ ['\n']

/-- What becomes of a vendor file. -/
inductive Left
  | absent
  | untouched
  | deleted
  | written (text : Text)
  deriving DecidableEq

/-- Take Nodal's line out of a vendor file, and the file too when that was all of it. -/
def unpoint : Option Text → Left
  | none => .absent
  | some text =>
    let kept := (lines text).filter fun line ↦ !isPointer line
    if kept.length = (lines text).length then .untouched
    else if kept.all (trim · = []) then .deleted
    else .written (List.intercalate ['\n'] kept ++ ['\n'])

/-- The pointer is added and taken back without a trace. -/
structure Traceless (text : Text) : Prop where
  once : (lines (amended (some text))).count LINE = 1
  unchanged : lines text <+: lines (amended (some text))
  again : amended (some (amended (some text))) = amended (some text)
  back : unpoint (some (amended (some text))) = .written text

/-! ### Blank texts -/

/-- Whether a text is white space alone. -/
def Blank (text : Text) : Prop := ∀ c ∈ text, isWhitespace c = true

theorem trim_eq_nil_iff {text : Text} : trim text = [] ↔ Blank text := by
  unfold trim trimStart
  rw [List.rdropWhile_eq_nil_iff]
  constructor
  · intro h
    have hnone : text.dropWhile isWhitespace = [] := by
      by_contra hne
      have hhead := List.head_dropWhile_not isWhitespace hne
      rw [h _ (List.head_mem hne)] at hhead
      cases hhead
    exact List.dropWhile_eq_nil_iff.mp hnone
  · exact fun h c hc ↦ h c ((List.dropWhile_suffix _).subset hc)

theorem blank_append {first second : Text} : Blank (first ++ second) ↔ Blank first ∧ Blank second :=
  List.forall_mem_append

theorem blank_chomp {line : Text} : Blank (chomp line) ↔ Blank line := by
  unfold chomp
  split_ifs with hlast
  · obtain ⟨before, rfl⟩ := List.getLast?_eq_some_iff.mp hlast
    rw [List.dropLast_concat, blank_append]
    exact (and_iff_left (by simp [Blank, isWhitespace])).symm
  · rfl

theorem blank_linesFrom {current text : Text} :
    (∀ line ∈ linesFrom current text, Blank line) ↔ Blank (current ++ text) := by
  induction text generalizing current with
  | nil =>
    unfold linesFrom
    split_ifs with hcurrent
    · simp [hcurrent, Blank]
    · simp
  | cons c text ih =>
    unfold linesFrom
    split_ifs with hc
    · have hnewline : isWhitespace '\n' = true := by decide
      have hcons : Blank (c :: text) ↔ isWhitespace c = true ∧ Blank text := List.forall_mem_cons
      rw [List.forall_mem_cons, ih, blank_chomp, List.nil_append, blank_append, hcons, hc]
      exact and_congr_right fun _ ↦ (and_iff_right hnewline).symm
    · rw [ih, List.append_assoc]
      rfl

theorem blank_lines_iff {text : Text} : (∀ line ∈ lines text, Blank line) ↔ Blank text :=
  blank_linesFrom

/-! ### The text with the pointer in it -/

/-- The line is one that is marked, and its last character is a full stop. -/
theorem line_shape : isPointer LINE = true ∧ '\n' ∉ LINE ∧ LINE.getLast? = some '.' := by
  decide +kernel

theorem isPointer_line : isPointer LINE = true := line_shape.1

theorem newline_not_mem_line : '\n' ∉ LINE := line_shape.2.1

theorem chomp_line : chomp LINE = LINE :=
  chomp_eq_self (by rw [line_shape.2.2]; decide)

theorem line_ne_nil : LINE ≠ [] := by
  intro hnil
  have hlast := line_shape.2.2
  rw [hnil] at hlast
  cases hlast

/-- A line of a text without the mark is not taken for the pointer. -/
theorem not_isPointer_of_within {line text : Text} (hmark : ¬MARK <:+: text) (hline : line <:+: text) :
    isPointer line = false := by
  by_contra h
  have hstart : MARK <+: trimStart line := List.isPrefixOf_iff_prefix.mp (by simpa [isPointer] using h)
  exact hmark (hstart.isInfix.trans ((List.dropWhile_suffix _).isInfix.trans hline))

theorem whole_withFinalNewline {text : Text} : Whole (withFinalNewline text) := by
  unfold withFinalNewline Whole
  split_ifs with h
  · intro c hc
    exact (Option.some.inj (h.symm.trans hc)).symm
  · simp

theorem prefix_withFinalNewline {text : Text} : text <+: withFinalNewline text := by
  unfold withFinalNewline
  split_ifs
  · exact List.prefix_rfl
  · exact List.prefix_append _ _

section Amended

variable {text : Text}

theorem mark_not_infix_ended (hmark : ¬MARK <:+: text) : ¬MARK <:+: withFinalNewline text := by
  unfold withFinalNewline
  split_ifs
  · exact hmark
  · have hnewline : '\n' ∉ MARK := by decide
    have hne : MARK ≠ [] := by decide
    rw [Find.infix_append_cons_iff hne hnewline]
    exact fun h ↦ h.elim hmark fun hnil ↦ hne (List.eq_nil_of_infix_nil hnil)

theorem blank_withFinalNewline : Blank (withFinalNewline text) ↔ Blank text := by
  have hnewline : isWhitespace '\n' = true := by decide
  unfold withFinalNewline
  split_ifs
  · rfl
  · rw [blank_append]
    simp [Blank, hnewline]

/-- The lines that stand between a text and the pointer. -/
def parting (text : Text) : List Text := if trim (withFinalNewline text) = [] then [] else [[]]

theorem amended_of_unmarked (hmark : ¬MARK <:+: text) :
    amended (some text) = withFinalNewline text ++ unlines (parting text ++ [LINE]) := by
  have hnone : ¬(lines text).any isPointer = true := by
    rw [Bool.not_eq_true, List.any_eq_false]
    intro line hline
    rw [not_isPointer_of_within hmark (infix_of_mem_lines hline)]
    exact Bool.false_ne_true
  rw [amended, if_neg hnone, parting]
  by_cases hblank : trim (withFinalNewline text) = [] <;> simp [hblank]

theorem blank_of_mem_parting {line : Text} (h : line ∈ parting text) : line = [] := by
  unfold parting at h
  split_ifs at h
  · cases h
  · exact List.mem_singleton.mp h

theorem whole_parting : Whole (unlines (parting text ++ [LINE])) := by
  simp [Whole]

theorem lines_amended (hmark : ¬MARK <:+: text) : lines (amended (some text)) =
    lines (withFinalNewline text) ++ (parting text ++ [LINE]) := by
  have hparted : lines (unlines (parting text ++ [LINE])) = parting text ++ [LINE] := by
    have hlines : ∀ line ∈ parting text ++ [LINE], '\n' ∉ line := by
      intro line hmem
      rcases List.mem_append.mp hmem with hmem | hmem
      · rw [blank_of_mem_parting hmem]
        exact List.not_mem_nil
      · rw [List.mem_singleton.mp hmem]
        exact newline_not_mem_line
    rw [unlines, lines_flatMap hlines, List.map_append, List.map_singleton, chomp_line, parting]
    split_ifs <;> rfl
  rw [amended_of_unmarked hmark, (lines_append_iff whole_parting).mpr (.inl whole_withFinalNewline),
    hparted]

theorem not_isPointer_lines (hmark : ¬MARK <:+: text) {line : Text}
    (hline : line ∈ lines (withFinalNewline text) ++ parting text) : isPointer line = false := by
  rcases List.mem_append.mp hline with hline | hline
  · exact not_isPointer_of_within (mark_not_infix_ended hmark) (infix_of_mem_lines hline)
  · rw [blank_of_mem_parting hline]
    rfl

/-- The pointer is there once. -/
theorem count_line (hmark : ¬MARK <:+: text) : (lines (amended (some text))).count LINE = 1 := by
  have hother : LINE ∉ lines (withFinalNewline text) ++ parting text := by
    intro hmem
    have hnot := not_isPointer_lines hmark hmem
    rw [isPointer_line] at hnot
    cases hnot
  rw [lines_amended hmark, ← List.append_assoc, List.count_append,
    List.count_eq_zero_of_not_mem hother, List.count_singleton_self]

/-- The bytes of the text are all there. -/
theorem prefix_amended (hmark : ¬MARK <:+: text) : text <+: amended (some text) := by
  rw [amended_of_unmarked hmark]
  exact prefix_withFinalNewline.trans (List.prefix_append _ _)

/-- A second pass puts the lines of the text together again. -/
theorem amended_again (hmark : ¬MARK <:+: text) : amended (some (amended (some text))) =
    unlines (lines (withFinalNewline text)) ++ unlines (parting text ++ [LINE]) := by
  have hfound : (lines (amended (some text))).any isPointer = true := by
    rw [lines_amended hmark]
    simp [isPointer_line]
  have hkept : (lines (amended (some text))).map (fun line ↦ if isPointer line then LINE else line) =
      lines (amended (some text)) := by
    rw [lines_amended hmark, ← List.append_assoc, List.map_append, List.map_singleton, isPointer_line,
      if_pos rfl]
    congr 1
    refine List.map_congr_left (fun line hline ↦ ?_) |>.trans (List.map_id _)
    rw [not_isPointer_lines hmark hline]
    rfl
  have hne : lines (amended (some text)) ≠ [] := by
    rw [lines_amended hmark]
    simp
  have hlast : (List.intercalate ['\n'] (lines (amended (some text)))).getLast? ≠ some '\n' := by
    rw [lines_amended hmark, ← List.append_assoc, getLast?_intercalate_newline line_ne_nil,
      line_shape.2.2]
    decide
  rw [amended, if_pos hfound, hkept, withFinalNewline, if_neg hlast, intercalate_newline hne,
    lines_amended hmark, unlines_append]

/-- A second pass leaves the file as it is where no line of it ends the way of Windows, nor would with
a newline after the text. -/
theorem amended_again_iff (hmark : ¬MARK <:+: text) :
    amended (some (amended (some text))) = amended (some text) ↔
      ¬CRLF <:+: withFinalNewline text := by
  rw [amended_again hmark, amended_of_unmarked hmark, List.append_left_inj,
    unlines_lines_iff whole_withFinalNewline]

/-- What comes back of a file of a person's: nothing, where it is blank, and each line with a newline
after it, and a blank line after the last, where it is not. -/
theorem unpoint_amended (hmark : ¬MARK <:+: text) : unpoint (some (amended (some text))) =
    if trim text = [] then .deleted
    else .written (unlines (lines (withFinalNewline text)) ++ ['\n']) := by
  have hkept : (lines (amended (some text))).filter (fun line ↦ !isPointer line) =
      lines (withFinalNewline text) ++ parting text := by
    rw [lines_amended hmark, ← List.append_assoc, List.filter_append]
    have hall : (lines (withFinalNewline text) ++ parting text).filter (fun line ↦ !isPointer line) =
        lines (withFinalNewline text) ++ parting text :=
      List.filter_eq_self.mpr fun line hline ↦ by rw [not_isPointer_lines hmark hline]; rfl
    rw [hall]
    simp [isPointer_line]
  have hshorter : (lines (withFinalNewline text) ++ parting text).length ≠
      (lines (amended (some text))).length := by
    rw [lines_amended hmark]
    simp
  have hblank : trim (withFinalNewline text) = [] ↔ trim text = [] := by
    rw [trim_eq_nil_iff, trim_eq_nil_iff, blank_withFinalNewline]
  have hall : (lines (withFinalNewline text) ++ parting text).all (trim · = []) = true ↔
      trim text = [] := by
    have hparting : ∀ line ∈ parting text, Blank line := by
      intro line hline
      rw [blank_of_mem_parting hline]
      exact List.forall_mem_nil _
    rw [List.all_eq_true]
    simp only [decide_eq_true_eq, trim_eq_nil_iff]
    rw [List.forall_mem_append, and_iff_left hparting, blank_lines_iff, blank_withFinalNewline]
  simp only [unpoint]
  rw [hkept, if_neg hshorter]
  by_cases htext : trim text = []
  · rw [if_pos (hall.mpr htext), if_pos htext]
  · have hparting : parting text = [[]] := if_neg (mt hblank.mp htext)
    rw [if_neg (mt hall.mp htext), if_neg htext, hparting, intercalate_newline (by simp),
      unlines_append]
    rfl

/-- No file of a person's comes back as it was: a blank one is deleted, and any other has a line more
than it had. -/
theorem unpoint_amended_ne (hmark : ¬MARK <:+: text) :
    unpoint (some (amended (some text))) ≠ .written text := by
  rw [unpoint_amended hmark]
  split_ifs
  · exact Left.noConfusion
  · intro h
    have hsame : unlines (lines (withFinalNewline text)) ++ ['\n'] = text := Left.written.inj h
    have hlines : (unlines (lines (withFinalNewline text))).count '\n' =
        (withFinalNewline text).count '\n' := by
      rw [count_unlines fun line hline ↦ newline_not_mem_of_mem_lines hline,
        length_lines whole_withFinalNewline]
    have hcount := congrArg (List.count '\n') hsame
    have hle : text.count '\n' ≤ (withFinalNewline text).count '\n' :=
      prefix_withFinalNewline.sublist.count_le _
    rw [List.count_append, List.count_singleton_self, hlines] at hcount
    omega

/-- A file Nodal made is removed whole. -/
theorem unpoint_amended_none : unpoint (some (amended none)) = .deleted := by
  have hlines : lines (amended none) = [LINE] := by
    rw [amended, lines_append newline_not_mem_line, chomp_line]
    rfl
  have hkept : [LINE].filter (fun line ↦ !isPointer line) = [] := by
    simp [isPointer_line]
  simp only [unpoint]
  rw [hlines, hkept]
  rfl

/-- Each line of the text is a line of the file, but for a last one without a newline that ends in a
carriage return. -/
theorem lines_prefix_iff (hmark : ¬MARK <:+: text) :
    lines text <+: lines (amended (some text)) ↔ text.getLast? ≠ some '\r' := by
  have hended : lines text <+: lines (withFinalNewline text) ↔ text.getLast? ≠ some '\r' := by
    unfold withFinalNewline
    split_ifs with hlast
    · simp [hlast]
    · exact lines_prefix_newline_iff
  have hlength : (lines text).length ≤ (lines (withFinalNewline text)).length := by
    rw [length_lines whole_withFinalNewline, lines, length_linesFrom List.not_mem_nil,
      List.nil_append]
    unfold withFinalNewline
    split_ifs with hwhole hlast hlast
    · exact le_rfl
    · simp
    · exact absurd (fun c hc ↦ (Option.some.inj (hlast.symm.trans hc)).symm) hwhole
    · simp
  rw [lines_amended hmark, ← hended]
  constructor
  · intro h
    exact List.prefix_of_prefix_length_le h (List.prefix_append _ _) hlength
  · exact fun h ↦ h.trans (List.prefix_append _ _)

/-- Where the pointer in a person's file leaves no trace: nowhere. The pointer is there once and every
byte of the text before it; a line is changed where the last has no newline and ends in a carriage
return; a second pass changes the file where some line of it ends the way of Windows; and what comes
back has a blank line more, or is no file at all. A file Nodal made is removed whole. -/
theorem leaves_trace (hmark : ¬MARK <:+: text) :
    ¬Traceless text ∧
      (lines (amended (some text))).count LINE = 1 ∧ text <+: amended (some text) ∧
      (lines text <+: lines (amended (some text)) ↔ text.getLast? ≠ some '\r') ∧
      (amended (some (amended (some text))) = amended (some text) ↔
        ¬CRLF <:+: withFinalNewline text) ∧
      (unpoint (some (amended (some text))) = if trim text = [] then .deleted
        else .written (unlines (lines (withFinalNewline text)) ++ ['\n'])) ∧
      unpoint (some (amended none)) = .deleted :=
  ⟨fun h ↦ unpoint_amended_ne hmark h.back, count_line hmark, prefix_amended hmark,
    lines_prefix_iff hmark, amended_again_iff hmark, unpoint_amended hmark, unpoint_amended_none⟩

end Amended

theorem heading_not_marked : ¬MARK <:+: "# Rules\n".toList := by decide

/-- At one file of a person's. -/
theorem heading_leaves_trace : ¬Traceless "# Rules\n".toList :=
  (leaves_trace heading_not_marked).1

/-- A heading comes back with a blank line under it, and an empty file does not come back. -/
theorem heading_comes_back_longer :
    (unpoint (some (amended (some "# Rules\n".toList))) = .written "# Rules\n\n".toList ∧
      ¬Traceless "# Rules\n".toList) ∧
    unpoint (some (amended (some []))) = .deleted ∧ ¬Traceless [] := by
  have hheading : unpoint (some (amended (some "# Rules\n".toList))) =
      .written "# Rules\n\n".toList := by
    rw [unpoint_amended heading_not_marked]
    decide
  have hempty : unpoint (some (amended (some []))) = .deleted := by
    rw [unpoint_amended (by decide)]
    rfl
  have hlonger : "# Rules\n\n".toList ≠ "# Rules\n".toList := by decide
  refine ⟨⟨hheading, fun h ↦ hlonger ?_⟩, hempty, fun h ↦ ?_⟩
  · exact Left.written.inj (hheading.symm.trans h.back)
  · exact Left.noConfusion (hempty.symm.trans h.back)

end Nodal.Pointer
