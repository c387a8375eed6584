import Nodal.Foundation.Text

/-!
# Lines, and putting them together again

A text is `Whole` when it is empty or ends where a line does. Whole lines put after a whole text are
lines of their own (`lines_append_iff`), and the lines of a whole text with a newline after each are that
text, but where a carriage return was taken off one of them (`unlines_lines_iff`).
-/

set_option autoImplicit false

namespace Nodal.Foundation.Text

/-! ### Whole lines -/

/-- A text that is empty or ends where a line does. -/
def Whole (text : Text) : Prop := ∀ c ∈ text.getLast?, c = '\n'

instance (text : Text) : Decidable text.Whole :=
  decidable_of_iff (text.getLast?.all (· = '\n') = true) (by
    unfold Whole
    cases text.getLast? <;> simp)

theorem whole_append_of_ne_nil {text more : Text} (h : more ≠ []) :
    Whole (text ++ more) ↔ Whole more := by
  rw [Whole, List.getLast?_append_of_ne_nil _ h, Whole]

theorem linesFrom_append_newline (current before rest : Text) :
    linesFrom current (before ++ '\n' :: rest) =
      linesFrom current (before ++ ['\n']) ++ lines rest := by
  induction before generalizing current with
  | nil => simp [linesFrom, lines]
  | cons c before ih =>
    rw [List.cons_append, List.cons_append, linesFrom, linesFrom]
    split_ifs
    · rw [ih, List.cons_append]
    · exact ih _

theorem length_linesFrom {current : Text} (hcurrent : '\n' ∉ current) (text : Text) :
    (linesFrom current text).length =
      text.count '\n' + if Whole (current ++ text) then 0 else 1 := by
  induction text generalizing current with
  | nil =>
    cases current using List.reverseRecOn with
    | nil => rfl
    | append_singleton current c =>
      have hc : c ≠ '\n' := by
        rintro rfl
        simp at hcurrent
      simp [linesFrom, Whole, hc]
  | cons c text ih =>
    unfold linesFrom
    split_ifs with hc hwhole hwhole
    · subst hc
      rw [List.length_cons, ih List.not_mem_nil, List.count_cons_self, List.nil_append]
      cases text with
      | nil => simp [Whole]
      | cons d text =>
        rw [whole_append_of_ne_nil (List.cons_ne_nil _ _)] at hwhole
        have hrest : Whole (d :: text) := by
          rwa [← List.singleton_append, whole_append_of_ne_nil (List.cons_ne_nil _ _)] at hwhole
        rw [if_pos hrest]
    · subst hc
      rw [List.length_cons, ih List.not_mem_nil, List.count_cons_self, List.nil_append]
      have hrest : ¬Whole text := by
        intro hrest
        apply hwhole
        cases text with
        | nil => simp [Whole]
        | cons d text =>
          rw [whole_append_of_ne_nil (List.cons_ne_nil _ _), ← List.singleton_append,
            whole_append_of_ne_nil (List.cons_ne_nil _ _)]
          exact hrest
      rw [if_neg hrest]
    all_goals
      have hlonger : '\n' ∉ current ++ [c] := by
        simp [hcurrent, Ne.symm hc]
      rw [ih hlonger, List.count_cons_of_ne hc, List.append_assoc, List.singleton_append]
      simp [hwhole]

/-- Whole lines put after a text are lines of their own exactly where the text ends with a line. -/
theorem lines_append_iff {text more : Text} (hmore : Whole more) :
    lines (text ++ more) = lines text ++ lines more ↔ Whole text ∨ more = [] := by
  constructor
  · intro h
    by_contra hnot
    obtain ⟨htext, hne⟩ := not_or.mp hnot
    have hlength := congrArg List.length h
    have hboth : Whole (text ++ more) := (whole_append_of_ne_nil hne).mpr hmore
    simp only [lines, List.length_append, length_linesFrom List.not_mem_nil, List.nil_append,
      List.count_append, if_pos hboth, if_pos hmore, if_neg htext] at hlength
    omega
  · rintro (htext | rfl)
    · cases text using List.reverseRecOn with
      | nil => rfl
      | append_singleton text c =>
        obtain rfl : c = '\n' := htext c (by simp)
        rw [List.append_assoc, List.singleton_append]
        exact linesFrom_append_newline [] text more
    · simp [lines, linesFrom]

/-! ### The lines of a text are in it -/

theorem chomp_isPrefix {line : Text} : chomp line <+: line := by
  unfold chomp
  split_ifs
  · exact List.dropLast_prefix line
  · exact List.prefix_rfl

theorem mem_linesFrom {line current text : Text} (h : line ∈ linesFrom current text) :
    line <:+: current ++ text := by
  induction text generalizing current with
  | nil =>
    unfold linesFrom at h
    split_ifs at h with hcurrent
    · cases h
    · rw [List.mem_singleton.mp h, List.append_nil]
  | cons c text ih =>
    unfold linesFrom at h
    split_ifs at h with hc
    · rcases List.mem_cons.mp h with rfl | h
      · exact (chomp_isPrefix.trans (List.prefix_append _ _)).isInfix
      · refine (ih h).trans ?_
        rw [List.nil_append]
        exact ((List.suffix_cons c text).trans (List.suffix_append _ _)).isInfix
    · simpa using ih h

theorem infix_of_mem_lines {line text : Text} (h : line ∈ lines text) : line <:+: text := by
  simpa using mem_linesFrom h

theorem newline_not_mem_linesFrom {line current text : Text} (hcurrent : '\n' ∉ current)
    (h : line ∈ linesFrom current text) : '\n' ∉ line := by
  induction text generalizing current with
  | nil =>
    unfold linesFrom at h
    split_ifs at h
    · cases h
    · rwa [List.mem_singleton.mp h]
  | cons c text ih =>
    unfold linesFrom at h
    split_ifs at h with hc
    · rcases List.mem_cons.mp h with rfl | h
      · exact fun hmem ↦ hcurrent (chomp_isPrefix.subset hmem)
      · exact ih List.not_mem_nil h
    · refine ih ?_ h
      simp [hcurrent, Ne.symm hc]

theorem newline_not_mem_of_mem_lines {line text : Text} (h : line ∈ lines text) : '\n' ∉ line :=
  newline_not_mem_linesFrom List.not_mem_nil h

theorem length_lines {text : Text} (h : Whole text) : (lines text).length = text.count '\n' := by
  rw [lines, length_linesFrom List.not_mem_nil, List.nil_append, if_pos h, Nat.add_zero]

theorem chomp_eq_self_iff {line : Text} : chomp line = line ↔ line.getLast? ≠ some '\r' := by
  refine ⟨fun h hlast ↦ ?_, chomp_eq_self⟩
  obtain ⟨before, rfl⟩ := List.getLast?_eq_some_iff.mp hlast
  have hlength := congrArg List.length h
  simp [chomp] at hlength

theorem linesFrom_prefix_newline_iff {current text : Text} :
    linesFrom current text <+: linesFrom current (text ++ ['\n']) ↔
      (current ++ text).getLast? ≠ some '\r' := by
  induction text generalizing current with
  | nil =>
    rw [List.append_nil, ← chomp_eq_self_iff]
    by_cases hcurrent : current = []
    · simp [linesFrom, hcurrent, chomp]
    · simp [linesFrom, hcurrent, List.cons_prefix_cons, eq_comm]
  | cons c text ih =>
    rw [List.cons_append, linesFrom, linesFrom]
    split_ifs with hc
    · have hlast : (current ++ c :: text).getLast? ≠ some '\r' ↔ text.getLast? ≠ some '\r' := by
        subst hc
        cases text with
        | nil => simp
        | cons d text =>
          rw [List.append_cons, List.getLast?_append_of_ne_nil _ (List.cons_ne_nil _ _)]
      rw [List.prefix_cons_inj, ih, hlast, List.nil_append]
    · rw [ih, List.append_assoc, List.singleton_append]

/-- A newline after a text changes no line of it, but a last one that ends in a carriage return. -/
theorem lines_prefix_newline_iff {text : Text} :
    lines text <+: lines (text ++ ['\n']) ↔ text.getLast? ≠ some '\r' :=
  linesFrom_prefix_newline_iff

/-! ### Lines put together -/

/-- Lines with a newline after each. -/
def unlines (written : List Text) : Text := written.flatMap (· ++ ['\n'])

@[simp] theorem unlines_nil : unlines [] = [] := rfl

@[simp] theorem unlines_cons (line : Text) (rest : List Text) :
    unlines (line :: rest) = line ++ '\n' :: unlines rest := by
  simp [unlines]

@[simp] theorem unlines_append (first second : List Text) :
    unlines (first ++ second) = unlines first ++ unlines second :=
  List.flatMap_append

/-- Joined with newlines, and one more. -/
theorem intercalate_newline {written : List Text} (h : written ≠ []) :
    List.intercalate ['\n'] written ++ ['\n'] = unlines written := by
  induction written with
  | nil => exact absurd rfl h
  | cons line rest ih =>
    cases rest with
    | nil => simp [List.intercalate]
    | cons next rest =>
      have hrest := ih (List.cons_ne_nil _ _)
      rw [unlines_cons, ← hrest]
      simp [List.intercalate]

/-- A joined text ends as its last line does. -/
theorem getLast?_intercalate_newline {line : Text} (h : line ≠ []) (written : List Text) :
    (List.intercalate ['\n'] (written ++ [line])).getLast? = line.getLast? := by
  induction written with
  | nil => simp [List.intercalate]
  | cons first rest ih =>
    have hne : rest ++ [line] ≠ [] := by simp
    obtain ⟨next, more, hmore⟩ := List.exists_cons_of_ne_nil hne
    have hjoined : List.intercalate ['\n'] (next :: more) ≠ [] := by
      intro hnil
      rw [hmore, hnil, List.getLast?_nil] at ih
      exact h (List.getLast?_eq_none_iff.mp ih.symm)
    rw [hmore] at ih
    rw [List.cons_append, hmore, ← ih]
    have hcut : List.intercalate ['\n'] (first :: next :: more) =
        first ++ '\n' :: List.intercalate ['\n'] (next :: more) := by
      simp [List.intercalate]
    rw [hcut, List.getLast?_append_of_ne_nil _ (List.cons_ne_nil _ _), ← List.singleton_append,
      List.getLast?_append_of_ne_nil _ hjoined]

theorem count_unlines {written : List Text} (h : ∀ line ∈ written, '\n' ∉ line) :
    (unlines written).count '\n' = written.length := by
  induction written with
  | nil => rfl
  | cons line rest ih =>
    obtain ⟨hline, hrest⟩ := List.forall_mem_cons.mp h
    rw [unlines_cons, List.count_append, List.count_cons_self, ih hrest,
      List.count_eq_zero_of_not_mem hline, List.length_cons]
    omega

/-! ### Lines read back -/

theorem split_eq_splitWhere (c : Char) (text : Text) : split c text = splitWhere (· = c) text := by
  induction text with
  | nil => rfl
  | cons first rest ih => simp only [split, splitWhere, ih, decide_eq_true_eq]

/-- A text of lines is read back as its lines exactly when each of them is a single one. -/
theorem split_unlines_iff {written : List Text} :
    split '\n' (unlines written) = written ++ [[]] ↔ ∀ line ∈ written, '\n' ∉ line := by
  refine ⟨fun h line hline hmem ↦ ?_, split_joined⟩
  have hpart : line ∈ splitWhere (· = '\n') (unlines written) := by
    rw [← split_eq_splitWhere, h]
    exact List.mem_append_left _ hline
  exact absurd (not_cut_of_mem_splitWhere hpart '\n' hmem) (by simp)

/-- How Windows ends a line. -/
def CRLF : Text := ['\r', '\n']

theorem crlf_infix_append_newline {current rest : Text} (hcurrent : '\n' ∉ current) :
    CRLF <:+: current ++ '\n' :: rest ↔ current.getLast? = some '\r' ∨ CRLF <:+: rest := by
  constructor
  · intro ⟨before, after, h⟩
    rw [List.append_assoc, List.append_eq_append_iff] at h
    rcases h with ⟨more, hcut, hrest⟩ | ⟨more, hcut, hrest⟩
    · match more, hcut, hrest with
      | [], _, hrest => simp [CRLF] at hrest
      | [c], hcut, hrest =>
        obtain rfl : '\r' = c := by simpa [CRLF] using congrArg List.head? hrest
        exact .inl (by simp [hcut])
      | c :: d :: more, hcut, hrest =>
        obtain rfl : '\n' = d := by simpa [CRLF] using congrArg (List.head? ∘ List.tail) hrest
        simp [hcut] at hcurrent
    · cases more with
      | nil => simp [CRLF] at hrest
      | cons c more =>
        have htail : rest = more ++ (CRLF ++ after) := by simpa using congrArg List.tail hrest
        exact .inr ⟨more, after, by rw [htail, List.append_assoc]⟩
  · rintro (hlast | hlater)
    · obtain ⟨before, rfl⟩ := List.getLast?_eq_some_iff.mp hlast
      exact ⟨before, rest, by simp [CRLF]⟩
    · exact hlater.trans ((List.suffix_cons _ _).trans (List.suffix_append _ _)).isInfix

theorem unlines_linesFrom_iff {current text : Text} (hcurrent : '\n' ∉ current)
    (hwhole : Whole (current ++ text)) : unlines (linesFrom current text) = current ++ text ↔
      ¬CRLF <:+: current ++ text := by
  induction text generalizing current with
  | nil =>
    have hnil : current = [] := by
      cases current using List.reverseRecOn with
      | nil => rfl
      | append_singleton current c =>
        have hc : c = '\n' := hwhole c (by simp)
        simp [hc] at hcurrent
    subst hnil
    simp [linesFrom, CRLF]
  | cons c text ih =>
    unfold linesFrom
    split_ifs with hc
    · subst hc
      have hrest : Whole ([] ++ text) := by
        cases text with
        | nil => simp [Whole]
        | cons d text =>
          rw [List.append_cons, whole_append_of_ne_nil (List.cons_ne_nil _ _)] at hwhole
          exact hwhole
      have hlater := ih List.not_mem_nil hrest
      rw [List.nil_append] at hlater
      rw [crlf_infix_append_newline hcurrent, unlines_cons, not_or, ← hlater]
      by_cases hlast : current.getLast? = some '\r'
      · have hne : chomp current ++ '\n' :: unlines (linesFrom [] text) ≠ current ++ '\n' :: text := by
          obtain ⟨before, rfl⟩ := List.getLast?_eq_some_iff.mp hlast
          simp [chomp]
        simp [hne, hlast]
      · rw [chomp_eq_self hlast]
        simp [hlast]
    · have hlonger : '\n' ∉ current ++ [c] := by
        simp [hcurrent, Ne.symm hc]
      have hlater := ih hlonger (by simpa using hwhole)
      simpa using hlater

/-- The lines of a whole text are put together again where none of them ends the way of Windows. -/
theorem unlines_lines_iff {text : Text} (h : Whole text) :
    unlines (lines text) = text ↔ ¬CRLF <:+: text :=
  unlines_linesFrom_iff List.not_mem_nil h

end Nodal.Foundation.Text
