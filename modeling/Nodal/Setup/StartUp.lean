import Nodal.Foundation.Find
import Nodal.Foundation.Lines
import Nodal.Runtime.Shells

/-!
# The block in a start-up file

`setup/rc.rs`: the install appends one marked block to a start-up file, and the uninstall removes the
region from the line of the first opening mark to the line of the first closing mark after it, with the
newline before it.

The file comes out as it was, and lines written after the block stay lines of their own, exactly where
the file does not hold the opening mark, the path of the shim does not hold the closing one, and the
file ended with a line or nothing was written after the block (`comesOut_iff`).
-/

set_option autoImplicit false

namespace Nodal.StartUp

open Foundation Foundation.Find Runtime.Shells

/-! ### The block -/

/-- The first line of the block. -/
def BEGIN : Text := "# >>> nodal >>>".toList

/-- The last line of the block. -/
def END : Text := "# <<< nodal <<<".toList

/-- The line between them that says what wrote this and what removes it. -/
def NOTE : Text :=
  "# Written by `nodal shell-init --install`. `nodal uninstall` removes it.".toList

/-- The same line, in a file the install made because there was none. -/
def NOTE_CREATED : Text :=
  ("# Written by `nodal shell-init --install`, which made this file. `nodal uninstall` " ++
    "removes the file.").toList

/-- A single-quoted POSIX shell word. -/
def posix (text : Text) : Text := Text.replace ['\''] ['\'', '\\', '\'', '\''] text

/-- The same for fish, which reads two escapes inside single quotes and no others. -/
def fish (text : Text) : Text :=
  Text.replace ['\''] ['\\', '\''] (Text.replace ['\\'] ['\\', '\\'] text)

/-- The line that loads the shim. -/
def load (shell : Shell) (path : Text) : Text :=
  match shell with
  | .bash | .zsh =>
    "[ -f ".toList ++ ['\''] ++ posix path ++ ('\'' :: " ] && . ".toList ++ ['\'']) ++ posix path ++
      ['\'']
  | .fish =>
    "test -f ".toList ++ ['\''] ++ fish path ++ ('\'' :: "; and source ".toList ++ ['\'']) ++
      fish path ++ ['\'']

/-- The lines of the block before its last. -/
def opening (shell : Shell) (shim : Text) (created : Bool) : Text :=
  BEGIN ++ '\n' :: (if created then NOTE_CREATED else NOTE) ++ '\n' :: load shell shim

/-- The block for a shell, loading the shim at a path. -/
def block (shell : Shell) (shim : Text) (created : Bool) : Text :=
  '\n' :: (opening shell shim created ++ '\n' :: (END ++ ['\n']))

/-! ### Adding and removing it -/

/-- The index of the start of the line an index is on. -/
def lineStart (text : Text) (index : ℕ) : ℕ :=
  ((text.take index).rdropWhile (· ≠ '\n')).length

/-- Where the block is, as the range removal takes. -/
def find (text : Text) : Option (ℕ × ℕ) := do
  let start := lineStart text (← indexOf BEGIN text)
  let stop := start + (← indexOf END (text.drop start))
  let after := match indexOf ['\n'] (text.drop stop) with
    | none => text.length
    | some offset => stop + offset + 1
  return (start - 1, after)

/-- The text with the block appended, or nothing when it already holds one. -/
def add (text : Text) (shell : Shell) (shim : Text) (created : Bool) : Option Text :=
  if (find text).isSome then none else some (text ++ block shell shim created)

/-- The text with the block removed, or nothing when it holds none. -/
def remove (text : Text) : Option Text := do
  let (start, stop) ← find text
  return text.take start ++ text.drop stop

/-- An install and an uninstall give the text back, and an uninstall after a person has written lines
below the block leaves the lines of both. -/
structure ComesOut (text more : Text) (shell : Shell) (shim : Text) (created : Bool) : Prop where
  back : (add text shell shim created).bind remove = some text
  lines : ((add text shell shim created).bind fun installed ↦ remove (installed ++ more)).map
    Text.lines = some (Text.lines text ++ Text.lines more)

/-! ### The marks -/

theorem begin_ne_nil : BEGIN ≠ [] := by decide

theorem end_ne_nil : END ≠ [] := by decide

theorem newline_not_mem_begin : '\n' ∉ BEGIN := by decide

theorem newline_not_mem_end : '\n' ∉ END := by decide

theorem end_infix_posix_iff {before path : Text} :
    END <:+: before ++ posix path ↔ END <:+: before ++ path := by
  rw [posix, Text.replace_singleton]
  refine infix_append_flatMap_iff end_ne_nil fun c ↦ ?_
  by_cases hc : c = '\''
  · right
    rw [if_pos hc, hc]
    exact ⟨by decide, '\'', ['\\', '\'', '\''], rfl, Text.forall_of_all (by decide)⟩
  · exact .inl (if_neg hc)

theorem end_infix_fish_iff {before path : Text} :
    END <:+: before ++ fish path ↔ END <:+: before ++ path := by
  have hquotes (text : Text) : END <:+: before ++ Text.replace ['\''] ['\\', '\''] text ↔
      END <:+: before ++ text := by
    rw [Text.replace_singleton]
    refine infix_append_flatMap_iff end_ne_nil fun c ↦ ?_
    by_cases hc : c = '\''
    · right
      rw [if_pos hc, hc]
      exact ⟨by decide, '\\', ['\''], rfl, Text.forall_of_all (by decide)⟩
    · exact .inl (if_neg hc)
  rw [fish, hquotes, Text.replace_singleton]
  refine infix_append_flatMap_iff end_ne_nil fun c ↦ ?_
  by_cases hc : c = '\\'
  · right
    rw [if_pos hc, hc]
    exact ⟨by decide, '\\', ['\\'], rfl, Text.forall_of_all (by decide)⟩
  · exact .inl (if_neg hc)

theorem end_infix_quoted_iff {first second word path : Text}
    (hword : END <:+: word ↔ END <:+: path) (hfirst : ¬END <:+: first)
    (hsecond : ¬END <:+: second) :
    END <:+: first ++ ['\''] ++ word ++ ('\'' :: second ++ ['\'']) ++ word ++ ['\''] ↔
      END <:+: path := by
  have hquote : '\'' ∉ END := by decide
  have hlast : ¬END <:+: ([] : Text) := fun h ↦ end_ne_nil (List.eq_nil_of_infix_nil h)
  simp only [List.append_assoc, List.cons_append, List.nil_append,
    infix_append_cons_iff end_ne_nil hquote, hword]
  tauto

/-- Quoting neither makes the closing mark nor breaks it. -/
theorem end_infix_load_iff {shell : Shell} {path : Text} :
    END <:+: load shell path ↔ END <:+: path := by
  have hposix := @end_infix_posix_iff [] path
  have hfish := @end_infix_fish_iff [] path
  cases shell with
  | bash => exact end_infix_quoted_iff hposix (by decide +kernel) (by decide +kernel)
  | zsh => exact end_infix_quoted_iff hposix (by decide +kernel) (by decide +kernel)
  | fish => exact end_infix_quoted_iff hfish (by decide +kernel) (by decide +kernel)

theorem end_infix_opening_iff {shell : Shell} {shim : Text} {created : Bool} :
    END <:+: opening shell shim created ↔ END <:+: shim := by
  have hbegin : ¬END <:+: BEGIN := by decide
  have hnote : ¬END <:+: (if created then NOTE_CREATED else NOTE) := by
    cases created <;> decide +kernel
  rw [opening, List.append_assoc, List.cons_append,
    infix_append_cons_iff end_ne_nil newline_not_mem_end,
    infix_append_cons_iff end_ne_nil newline_not_mem_end, end_infix_load_iff]
  tauto

/-! ### Where a line starts -/

theorem lineStart_le {text : Text} {index : ℕ} : lineStart text index ≤ index := by
  have hprefix := (List.rdropWhile_prefix (fun c : Char ↦ decide (c ≠ '\n')) (text.take index)).length_le
  unfold lineStart
  rw [List.length_take] at hprefix
  omega

theorem lineStart_append {text more : Text} {index : ℕ} (h : index ≤ text.length) :
    lineStart (text ++ more) index = lineStart text index := by
  rw [lineStart, List.take_append_of_le_length h, lineStart]

theorem lineStart_append_newline {text more : Text} :
    lineStart (text ++ '\n' :: more) (text.length + 1) = text.length + 1 := by
  have htake : (text ++ '\n' :: more).take (text.length + 1) = text ++ ['\n'] := by
    simp [List.take_append]
  rw [lineStart, htake, List.rdropWhile_concat_neg _ _ _ (by simp)]
  simp

/-- A line that is not the first one comes after a newline. -/
theorem drop_lineStart_pred {text : Text} {index : ℕ} (h : lineStart text index ≠ 0) :
    text.drop (lineStart text index - 1) = '\n' :: text.drop (lineStart text index) := by
  obtain ⟨above, habove⟩ : ∃ above,
      (text.take index).rdropWhile (fun c ↦ decide (c ≠ '\n')) = above := ⟨_, rfl⟩
  have hlength : lineStart text index = above.length := by rw [lineStart, habove]
  obtain ⟨rest, hrest⟩ : above <+: text :=
    habove ▸ (List.rdropWhile_prefix _ _).trans (List.take_prefix _ _)
  have hne : above ≠ [] := by
    rintro rfl
    exact h hlength
  have hlast : above.getLast hne = '\n' := by
    subst habove
    simpa using List.rdropWhile_last_not _ _ hne
  have hends : above = above.dropLast ++ ['\n'] := by
    rw [← hlast, List.dropLast_append_getLast]
  rw [hlength, ← hrest, List.drop_left, hends]
  simp

/-! ### What is cut -/

/-- What is cut of a text whose block begins on a line: the lines up to the last one of the block, or,
where a closing mark comes before that one, not that one. -/
theorem find_of_opening {text above below : Text} {index : ℕ} (hindex : indexOf BEGIN text = some index)
    (hdrop : text.drop (lineStart text index) = above ++ '\n' :: (END ++ '\n' :: below)) :
    ∃ after, find text = some (lineStart text index - 1, after) ∧
      (¬END <:+: above ∧ text.drop after = below ∨ END <:+: above ∧ END <:+: text.drop after) := by
  have hend : indexOf END (END ++ '\n' :: below) = some 0 := indexOf_of_prefix (List.prefix_append _ _)
  by_cases hearly : END <:+: above
  · obtain ⟨offset, hoffset⟩ := Option.ne_none_iff_exists'.mp (mt indexOf_eq_none_iff.mp (not_not.mpr hearly))
    have hinside := indexOf_add_length_le hoffset
    have hstop : text.drop (lineStart text index + offset) =
        above.drop offset ++ '\n' :: (END ++ '\n' :: below) := by
      rw [← List.drop_drop, hdrop, List.drop_append_of_le_length (by omega)]
    have hnewline : ['\n'] <+: (text.drop (lineStart text index + offset)).drop (above.length - offset) := by
      rw [hstop, ← List.length_drop, List.drop_left]
      exact ⟨_, rfl⟩
    obtain ⟨line, hline, hfound⟩ := exists_indexOf_le hnewline
    refine ⟨lineStart text index + offset + line + 1, ?_, .inr ⟨hearly, ?_⟩⟩
    · simp [find, hindex, hdrop, indexOf_append_of_some hoffset, hfound]
    · have hkept : text.drop (lineStart text index + offset + line + 1) =
          (above ++ ['\n']).drop (offset + line + 1) ++ (END ++ '\n' :: below) := by
        rw [Nat.add_assoc, Nat.add_assoc, ← List.drop_drop, hdrop, List.append_cons above,
          List.drop_append_of_le_length, Nat.add_assoc]
        rw [List.length_append, List.length_singleton]
        omega
      rw [hkept]
      exact (List.prefix_append END _).isInfix.trans (List.suffix_append _ _).isInfix
  · have hoffset : indexOf END (above ++ '\n' :: (END ++ '\n' :: below)) = some (above.length + 1) := by
      rw [indexOf_append_cons end_ne_nil newline_not_mem_end hearly, hend]
      simp
    have hstop : text.drop (lineStart text index + (above.length + 1)) = END ++ '\n' :: below := by
      rw [← List.drop_drop, hdrop]
      simp
    have hline : indexOf ['\n'] (END ++ '\n' :: below) = some END.length :=
      indexOf_singleton_append newline_not_mem_end
    refine ⟨lineStart text index + (above.length + 1) + END.length + 1, ?_, .inl ⟨hearly, ?_⟩⟩
    · simp [find, hindex, hdrop, hoffset, hstop, hline]
    · rw [Nat.add_assoc _ END.length 1, ← List.drop_drop, hstop]
      simp

section Round

variable {text more : Text} {shell : Shell} {shim : Text} {created : Bool}

theorem add_of_find (hnone : find text = none) :
    add text shell shim created = some (text ++ block shell shim created) := by
  rw [add, hnone]
  rfl

theorem remove_of_find {start after : ℕ} (h : find text = some (start, after)) :
    remove text = some (text.take start ++ text.drop after) := by
  rw [remove, h]
  rfl

/-- What an uninstall leaves of a text without the opening mark. -/
theorem remove_block (hbegin : ¬BEGIN <:+: text) : ∃ rest,
    remove (text ++ block shell shim created ++ more) = some (text ++ rest) ∧
      (¬END <:+: shim ∧ rest = more ∨ END <:+: shim ∧ END <:+: rest) := by
  have hblock : text ++ block shell shim created ++ more =
      text ++ '\n' :: (opening shell shim created ++ '\n' :: (END ++ '\n' :: more)) := by
    simp [block]
  have hfirst : BEGIN <+: opening shell shim created ++ '\n' :: (END ++ '\n' :: more) := by
    rw [opening, List.append_assoc, List.append_assoc]
    exact List.prefix_append _ _
  have hindex : indexOf BEGIN (text ++ '\n' :: (opening shell shim created ++
      '\n' :: (END ++ '\n' :: more))) = some (text.length + 1) := by
    rw [indexOf_append_cons begin_ne_nil newline_not_mem_begin hbegin, indexOf_of_prefix hfirst]
    simp
  have hdrop : (text ++ '\n' :: (opening shell shim created ++ '\n' :: (END ++ '\n' :: more))).drop
      (text.length + 1) = opening shell shim created ++ '\n' :: (END ++ '\n' :: more) := by
    simp
  rw [hblock]
  obtain ⟨after, hfind, hcut⟩ := find_of_opening hindex (by rw [lineStart_append_newline, hdrop])
  rw [lineStart_append_newline, Nat.add_sub_cancel] at hfind
  refine ⟨_, (remove_of_find hfind).trans (by rw [List.take_left]), ?_⟩
  rwa [end_infix_opening_iff] at hcut

/-- A text that holds the opening mark does not come back. -/
theorem remove_ne_of_begin (hnone : find text = none) (hbegin : BEGIN <:+: text) :
    remove (text ++ block shell shim created) ≠ some text := by
  obtain ⟨index, hindex⟩ := Option.ne_none_iff_exists'.mp (mt indexOf_eq_none_iff.mp (not_not.mpr hbegin))
  have hinside := indexOf_add_length_le hindex
  have hline := @lineStart_append text (block shell shim created) index (by omega)
  have hstart := @lineStart_le text index
  have hopen : ¬END <:+: text.drop (lineStart text index) := by
    rw [← indexOf_eq_none_iff]
    by_contra hfound
    obtain ⟨offset, hoffset⟩ := Option.ne_none_iff_exists'.mp hfound
    simp [find, hindex, hoffset] at hnone
  have hdrop : (text ++ block shell shim created).drop
      (lineStart (text ++ block shell shim created) index) =
        (text.drop (lineStart text index) ++ '\n' :: opening shell shim created) ++
          '\n' :: (END ++ '\n' :: []) := by
    rw [hline, List.drop_append_of_le_length (by omega)]
    simp [block]
  obtain ⟨after, hfind, hcut⟩ := find_of_opening (indexOf_append_of_some hindex) hdrop
  rw [hline] at hfind
  rw [remove_of_find hfind, List.take_append_of_le_length (by omega), ne_eq, Option.some.injEq]
  intro hback
  have hrest : (text ++ block shell shim created).drop after = text.drop (lineStart text index - 1) :=
    List.append_cancel_left (hback.trans (List.take_append_drop _ text).symm)
  rw [hrest] at hcut
  rcases hcut with ⟨-, hnil⟩ | ⟨-, hmark⟩
  · -- The line of the mark is in what was cut.
    have hlength := congrArg List.length hnil
    have hmark : BEGIN.length ≠ 0 := by decide
    rw [List.length_drop, List.length_nil] at hlength
    omega
  · apply hopen
    by_cases hzero : lineStart text index = 0
    · rwa [hzero] at hmark ⊢
    · rw [drop_lineStart_pred hzero] at hmark
      have hcons := @infix_append_cons_iff Char END [] (text.drop (lineStart text index)) '\n'
        end_ne_nil newline_not_mem_end
      refine (hcons.mp hmark).resolve_left fun h ↦ end_ne_nil (List.eq_nil_of_infix_nil h)

/-- The file comes out exactly where it does not hold the opening mark and the path of the shim does not
hold the closing one, and the lines below the block do where nothing is joined to them. Assumes: the
file holds no block, and what was written below the block is whole lines. -/
theorem comesOut_iff (hnone : find text = none) (hmore : more.Whole) :
    ComesOut text more shell shim created ↔
      ¬BEGIN <:+: text ∧ ¬END <:+: shim ∧ (text.Whole ∨ more = []) := by
  have hadd := @add_of_find text shell shim created hnone
  constructor
  · intro ⟨hback, hlines⟩
    simp only [hadd, Option.bind_some] at hback hlines
    have hbegin : ¬BEGIN <:+: text := fun h ↦ remove_ne_of_begin hnone h hback
    have hend : ¬END <:+: shim := by
      obtain ⟨rest, hremove, hrest⟩ := @remove_block text [] shell shim created hbegin
      rcases hrest with ⟨hend, -⟩ | ⟨-, hmark⟩
      · exact hend
      · rw [List.append_nil, hback, Option.some.injEq, List.self_eq_append_right] at hremove
        rw [hremove] at hmark
        exact absurd (List.eq_nil_of_infix_nil hmark) end_ne_nil
    obtain ⟨rest, hremove, hrest⟩ := @remove_block text more shell shim created hbegin
    obtain ⟨-, rfl⟩ := hrest.resolve_right fun h ↦ hend h.1
    rw [hremove, Option.map_some, Option.some.injEq] at hlines
    exact ⟨hbegin, hend, (Text.lines_append_iff hmore).mp hlines⟩
  · intro ⟨hbegin, hend, hjoined⟩
    have hremove (more : Text) :
        remove (text ++ block shell shim created ++ more) = some (text ++ more) := by
      obtain ⟨rest, hremove, hrest⟩ := @remove_block text more shell shim created hbegin
      obtain ⟨-, rfl⟩ := hrest.resolve_right fun h ↦ hend h.1
      exact hremove
    constructor
    · simpa [hadd] using hremove []
    · rw [hadd, Option.bind_some, hremove, Option.map_some, (Text.lines_append_iff hmore).mpr hjoined]

end Round

def prompt : Text := "PS1='$ '".toList

def shimOfBash : Text := "/home/dev/.nodal/shims/nodal.bash".toList

theorem prompt_comesOut : ComesOut (prompt ++ ['\n']) "last\n".toList .bash shimOfBash false ↔
    ¬BEGIN <:+: prompt ++ ['\n'] ∧ ¬END <:+: shimOfBash ∧
      ((prompt ++ ['\n']).Whole ∨ "last\n".toList = []) :=
  comesOut_iff (by decide +kernel) (by decide)

/-- A file that ends without a newline has its last line joined to the first one written below the
block, and one with a stray opening mark loses the lines from there on. -/
theorem lines_are_lost : find prompt = none ∧ Text.Whole "last\n".toList ∧
    ¬ComesOut prompt "last\n".toList .bash shimOfBash false ∧
    find (BEGIN ++ '\n' :: prompt) = none ∧
    (add (BEGIN ++ '\n' :: prompt) .bash shimOfBash false).bind remove = some [] := by
  refine ⟨by decide +kernel, by decide, fun hout ↦ ?_, by decide +kernel, by decide +kernel⟩
  have hlines := hout.lines
  revert hlines
  decide +kernel

end Nodal.StartUp
