import Mathlib.Data.List.Infix
import Nodal.Foundation.Text

/-!
# Values replaced by marks

A text is filled with the value of each of some names, and the values are then replaced, name after
name in a fixed order, by the marks that stand for them. The marks share no character with the values.

The marks come back in place of the values, whatever text was filled, where every name is in the order
and the values are `Clear`: put after the values of any names that come after it, the value of a name
occurs at the end only (`replaceAll_fill`). Where they come back in every word of names, this is so
(`clears_iff`).
-/

set_option autoImplicit false

namespace Nodal.Foundation.Marks

open Text (replace replaceFrom)

/-! ### One replacement -/

variable {pattern value' text : Text}

theorem replace_of_not_prefix {c : Char} (h : ¬ pattern <+: c :: text) :
    replace pattern value' (c :: text) = c :: replace pattern value' text := by
  rw [replace, replaceFrom, if_neg h, replace]

/-- What is skipped is left out. -/
theorem replaceFrom_length_append (skipped text : Text) :
    replaceFrom pattern value' skipped.length (skipped ++ text) = replace pattern value' text := by
  induction skipped with
  | nil => rfl
  | cons c skipped ih =>
    rw [List.length_cons, List.cons_append, replaceFrom]
    exact ih

theorem replace_self_append (h : pattern ≠ []) (text : Text) :
    replace pattern value' (pattern ++ text) = value' ++ replace pattern value' text := by
  obtain ⟨c, pattern, rfl⟩ := List.exists_cons_of_ne_nil h
  have hprefixed : c :: pattern <+: c :: (pattern ++ text) := ⟨text, rfl⟩
  rw [List.cons_append, replace, replaceFrom, if_pos hprefixed, List.length_cons,
    Nat.add_sub_cancel, replaceFrom_length_append]

/-- A part in which the pattern begins nowhere is kept. -/
theorem replace_append_of_unmatched {before rest : Text}
    (h : ∀ first last, before = first ++ last → last ≠ [] → ¬ pattern <+: last ++ rest) :
    replace pattern value' (before ++ rest) = before ++ replace pattern value' rest := by
  induction before with
  | nil => rfl
  | cons c before ih =>
    have hhere : ¬ pattern <+: c :: (before ++ rest) := h [] (c :: before) rfl (List.cons_ne_nil _ _)
    rw [List.cons_append, replace_of_not_prefix hhere, List.cons_append,
      ih fun first last hbefore hlast ↦ h (c :: first) last (by rw [hbefore]; rfl) hlast]

/-- A pattern does not reach over a part that begins with no character of it. -/
theorem prefix_append_mark_iff {k : Char} {mark rest : Text} (h : k ∉ pattern) (before : Text) :
    pattern <+: before ++ k :: mark ++ rest ↔ pattern <+: before := by
  constructor
  · rintro ⟨after, hafter⟩
    rw [List.append_assoc, List.append_eq_append_iff] at hafter
    obtain ⟨extra, hbefore, -⟩ | ⟨extra, hpattern, hover⟩ := hafter
    · exact ⟨extra, hbefore.symm⟩
    · cases extra with
      | nil => exact ⟨[], by rw [hpattern, List.append_nil, List.append_nil]⟩
      | cons d extra =>
        rw [List.cons_append, List.cons_append, List.cons.injEq] at hover
        exact absurd (by rw [hpattern, hover.1]; simp) h
  · intro hbefore
    rw [List.append_assoc]
    exact hbefore.trans (List.prefix_append _ _)

/-- The parts before and after a mark are replaced on their own. -/
theorem replace_append_mark {k : Char} {mark : Text} (hpattern : pattern ≠ [])
    (h : ∀ c ∈ k :: mark, c ∉ pattern) (before rest : Text) :
    replace pattern value' (before ++ k :: mark ++ rest) =
      replace pattern value' before ++ k :: mark ++ replace pattern value' rest := by
  have hk : k ∉ pattern := h k List.mem_cons_self
  have hmark : replace pattern value' (k :: mark ++ rest) =
      k :: mark ++ replace pattern value' rest := by
    refine replace_append_of_unmatched fun first last hmark hlast hprefixed ↦ ?_
    obtain ⟨c, last, rfl⟩ := List.exists_cons_of_ne_nil hlast
    obtain ⟨p, pattern, rfl⟩ := List.exists_cons_of_ne_nil hpattern
    obtain ⟨after, hafter⟩ := hprefixed
    rw [List.cons_append, List.cons_append, List.cons.injEq] at hafter
    refine h c (by rw [hmark]; simp) ?_
    rw [← hafter.1]
    exact List.mem_cons_self
  suffices hskip : ∀ skip ≤ before.length,
      replaceFrom pattern value' skip (before ++ k :: mark ++ rest) =
        replaceFrom pattern value' skip before ++ k :: mark ++ replace pattern value' rest from
    hskip 0 (Nat.zero_le _)
  induction before with
  | nil =>
    intro skip hskip
    obtain rfl : skip = 0 := Nat.le_zero.mp hskip
    exact hmark
  | cons c before ih =>
    intro skip hskip
    cases skip with
    | succ skip => exact ih skip (Nat.le_of_succ_le_succ hskip)
    | zero =>
      have hsame : pattern <+: c :: (before ++ k :: mark ++ rest) ↔ pattern <+: c :: before :=
        prefix_append_mark_iff hk (c :: before)
      simp only [List.cons_append, replaceFrom]
      by_cases hprefixed : pattern <+: c :: before
      · have hlength := hprefixed.length_le
        rw [List.length_cons] at hlength
        rw [if_pos (hsame.mpr hprefixed), if_pos hprefixed, ih (pattern.length - 1) (by omega)]
        simp only [List.append_assoc]
      · rw [if_neg (mt hsame.mp hprefixed), if_neg hprefixed, ih 0 (Nat.zero_le _)]
        simp only [List.cons_append]

/-- A text is kept, or its first occurrence is replaced and the rest goes on. -/
theorem replace_cases (h : pattern ≠ []) (text : Text) :
    (replace pattern value' text = text ∧ ¬ pattern <:+: text) ∨
      ∃ before after, text = before ++ pattern ++ after ∧
        replace pattern value' text = before ++ value' ++ replace pattern value' after ∧
        ∀ first last, text = first ++ pattern ++ last → before.length ≤ first.length := by
  induction text with
  | nil => exact .inl ⟨rfl, fun hinfix ↦ h (List.eq_nil_of_infix_nil hinfix)⟩
  | cons c text ih =>
    by_cases hprefixed : pattern <+: c :: text
    · obtain ⟨after, hafter⟩ := hprefixed
      refine .inr ⟨[], after, hafter.symm, ?_, fun _ _ _ ↦ Nat.zero_le _⟩
      rw [← hafter]
      exact replace_self_append h after
    · have hcons : replace pattern value' (c :: text) = c :: replace pattern value' text :=
        replace_of_not_prefix hprefixed
      rcases ih with ⟨hkept, hnone⟩ | ⟨before, after, htext, hreplaced, hfirst⟩
      · refine .inl ⟨by rw [hcons, hkept], fun hinfix ↦ ?_⟩
        rcases List.infix_cons_iff.mp hinfix with hhere | hlater
        · exact hprefixed hhere
        · exact hnone hlater
      · refine .inr ⟨c :: before, after, by rw [htext]; rfl, by rw [hcons, hreplaced]; rfl, ?_⟩
        intro first last hsplit
        cases first with
        | nil => exact absurd ⟨last, hsplit.symm⟩ hprefixed
        | cons d first =>
          rw [List.cons_append, List.cons_append, List.cons.injEq] at hsplit
          exact Nat.succ_le_succ (hfirst first last hsplit.2)

/-! ### Texts filled with values -/

/-- What a text is made of: characters, and names to be filled. -/
inductive Piece (ν : Type)
  | char (c : Char)
  | name (n : ν)

variable {ν : Type}

/-- The text with each name filled. -/
def fill (each : ν → Text) : List (Piece ν) → Text
  | [] => []
  | .char c :: rest => c :: fill each rest
  | .name n :: rest => each n ++ fill each rest

theorem fill_append (each : ν → Text) (first last : List (Piece ν)) :
    fill each (first ++ last) = fill each first ++ fill each last := by
  induction first with
  | nil => rfl
  | cons piece first ih =>
    cases piece with
    | char c => rw [List.cons_append, fill, fill, ih, List.cons_append]
    | name n => rw [List.cons_append, fill, fill, ih, List.append_assoc]

/-- A text of names alone. -/
theorem fill_names (each : ν → Text) (word : List ν) :
    fill each (word.map .name) = word.flatMap each := by
  induction word with
  | nil => rfl
  | cons n word ih => rw [List.map_cons, fill, List.flatMap_cons, ih]

theorem fill_intercalate (each : ν → Text) (between : List (Piece ν))
    (parts : List (List (Piece ν))) :
    fill each (List.intercalate between parts) =
      List.intercalate (fill each between) (parts.map (fill each)) := by
  cases parts with
  | nil => rfl
  | cons part parts =>
    induction parts generalizing part with
    | nil => simp
    | cons next parts ih =>
      rw [List.intercalate_cons_cons, fill_append, fill_append, ih]
      simp only [List.map_cons, List.intercalate_cons_cons]

/-- The values of the names replaced by their marks, name after name. -/
def replaceAll (value mark : ν → Text) (order : List ν) (text : Text) : Text :=
  order.foldl (fun text n ↦ replace (value n) (mark n) text) text

/-- Put after a word of later names, the value of a name occurs at the end only. -/
def StandsLast (value : ν → Text) (later : List ν) (n : ν) : Prop :=
  ∀ word : List ν, (∀ m ∈ word, m ∈ later) → ∀ before after,
    word.flatMap value ++ value n = before ++ value n ++ after → after = []

/-- No value can be found, whole or in part, in the values of the names after it. -/
def Clear (value : ν → Text) : List ν → Prop
  | [] => True
  | n :: later => StandsLast value later n ∧ Clear value later

/-- Values and marks that cannot be taken for one another, and marks that can be told apart. -/
structure Legible (value mark : ν → Text) (names : ν → Prop) : Prop where
  value_ne_nil : ∀ n, names n → value n ≠ []
  mark_ne_nil : ∀ n, names n → mark n ≠ []
  apart : ∀ n m, names n → names m → ∀ c ∈ mark n, c ∉ value m
  told : ∀ word word' : List ν, (∀ n ∈ word, names n) → (∀ n ∈ word', names n) →
    word.flatMap mark = word'.flatMap mark → word = word'

/-- A text of these names and of characters that no value of them has. -/
def Fits (value : ν → Text) (names : ν → Prop) (template : List (Piece ν)) : Prop :=
  ∀ piece ∈ template, match piece with
    | .char c => ∀ n, names n → c ∉ value n
    | .name n => names n

variable {value mark : ν → Text} {names : ν → Prop} {order later : List ν} {n : ν}

/-! ### The words that come back -/

/-- A text with no character of a value. -/
def Free (value : ν → Text) (names : ν → Prop) (text : Text) : Prop :=
  ∀ n, names n → ∀ c ∈ text, c ∉ value n

/-- A mark stays, and what is before and after it is replaced on its own. -/
theorem replaceAll_append_mark (hlegible : Legible value mark names)
    (horder : ∀ n ∈ order, names n) (hn : names n) (before rest : Text) :
    replaceAll value mark order (before ++ mark n ++ rest) =
      replaceAll value mark order before ++ mark n ++ replaceAll value mark order rest := by
  induction order generalizing before rest with
  | nil => rfl
  | cons m later ih =>
    have hm : names m := horder m List.mem_cons_self
    obtain ⟨k, tail, hmark⟩ := List.exists_cons_of_ne_nil (hlegible.mark_ne_nil n hn)
    have hstep : replace (value m) (mark m) (before ++ mark n ++ rest) =
        replace (value m) (mark m) before ++ mark n ++ replace (value m) (mark m) rest := by
      rw [hmark]
      exact replace_append_mark (hlegible.value_ne_nil m hm)
        (fun c hc ↦ hlegible.apart n m hn hm c (by rw [hmark]; exact hc)) before rest
    rw [replaceAll, List.foldl_cons, hstep]
    exact ih (fun m hm ↦ horder m (List.mem_cons_of_mem _ hm)) _ _

/-- What leaves no character of a value behind is made of values, and comes back as their marks. -/
theorem exists_word_of_replaceAll (hlegible : Legible value mark names)
    (horder : ∀ n ∈ order, names n) {text : Text}
    (htext : ∀ c ∈ text, ∃ n, names n ∧ c ∈ value n)
    (hfree : Free value names (replaceAll value mark order text)) :
    ∃ word : List ν, (∀ n ∈ word, n ∈ order) ∧ text = word.flatMap value ∧
      replaceAll value mark order text = word.flatMap mark := by
  induction order generalizing text with
  | nil =>
    cases text with
    | nil => exact ⟨[], fun n hn ↦ absurd hn List.not_mem_nil, rfl, rfl⟩
    | cons c text =>
      obtain ⟨n, hn, hc⟩ := htext c List.mem_cons_self
      exact absurd hc (hfree n hn c List.mem_cons_self)
  | cons n later ih =>
    have hn : names n := horder n List.mem_cons_self
    have hlater : ∀ m ∈ later, names m := fun m hm ↦ horder m (List.mem_cons_of_mem n hm)
    induction hlength : text.length using Nat.strong_induction_on generalizing text with
    | _ length shorter =>
      subst hlength
      have hsplit := @replace_cases (value n) (mark n) (hlegible.value_ne_nil n hn) text
      rcases hsplit with ⟨hkept, -⟩ | ⟨before, after, hparts, hreplaced, -⟩
      · have hsame : replaceAll value mark (n :: later) text = replaceAll value mark later text := by
          rw [replaceAll, List.foldl_cons, hkept]
          rfl
        rw [hsame] at hfree ⊢
        obtain ⟨word, hword, hvalues, hmarks⟩ := ih hlater htext hfree
        exact ⟨word, fun m hm ↦ List.mem_cons_of_mem n (hword m hm), hvalues, hmarks⟩
      · have hboth : replaceAll value mark (n :: later) text =
            replaceAll value mark later before ++ mark n ++
              replaceAll value mark (n :: later) after := by
          rw [replaceAll, List.foldl_cons, hreplaced]
          exact replaceAll_append_mark hlegible hlater hn before _
        rw [hboth] at hfree ⊢
        have hbefore : ∀ c ∈ before, ∃ n, names n ∧ c ∈ value n := fun c hc ↦
          htext c (by rw [hparts]; simp [hc])
        obtain ⟨word, hword, hvalues, hmarks⟩ := ih hlater hbefore
          fun m hm c hc ↦ hfree m hm c (by simp [hc])
        have hshorter : after.length < text.length := by
          have hpos := List.length_pos_iff.mpr (hlegible.value_ne_nil n hn)
          rw [hparts]
          simp only [List.length_append]
          omega
        obtain ⟨word', hword', hvalues', hmarks'⟩ := shorter after.length hshorter
          (fun c hc ↦ htext c (by rw [hparts]; simp [hc]))
          (fun m hm c hc ↦ hfree m hm c (by simp [hc])) rfl
        refine ⟨word ++ n :: word', ?_, ?_, ?_⟩
        · intro m hm
          rcases List.mem_append.mp hm with hm | hm
          · exact List.mem_cons_of_mem n (hword m hm)
          · rcases List.mem_cons.mp hm with rfl | hm
            · exact List.mem_cons_self
            · exact hword' m hm
        · rw [hparts, hvalues, hvalues']
          simp
        · rw [hmarks, hmarks']
          simp

/-! ### The marks come back -/

variable [DecidableEq ν]

/-- What stands for a name while these are still to be replaced. -/
def pending (value mark : ν → Text) (rest : List ν) (n : ν) : Text :=
  if n ∈ rest then value n else mark n

/-- A value that begins in one text and goes on in the next is made of the values of the names after
it, and of itself. -/
theorem exists_word (hlegible : Legible value mark names) (hn : names n)
    {template : List (Piece ν)} (hfits : Fits value names template) (begun : Text)
    (h : value n <+: begun ++ fill (pending value mark (n :: later)) template) :
    ∃ word : List ν, (∀ m ∈ word, m ∈ later) ∧ value n <+: begun ++ word.flatMap value ++ value n := by
  have hcut (begun : Text) {k : Char} {rest : Text} (hk : k ∉ value n)
      (h : value n <+: begun ++ k :: rest) : ∃ word : List ν, (∀ m ∈ word, m ∈ later) ∧
        value n <+: begun ++ word.flatMap value ++ value n := by
    refine ⟨[], fun m hm ↦ absurd hm List.not_mem_nil, ?_⟩
    rw [← List.append_nil (k :: rest), ← List.append_assoc, prefix_append_mark_iff hk] at h
    simpa using h.trans (List.prefix_append begun (value n))
  induction template generalizing begun with
  | nil =>
    refine ⟨[], fun m hm ↦ absurd hm List.not_mem_nil, ?_⟩
    rw [fill, List.append_nil] at h
    simpa using h.trans (List.prefix_append begun (value n))
  | cons piece template ih =>
    have hrest : Fits value names template := fun piece hpiece ↦
      hfits piece (List.mem_cons_of_mem _ hpiece)
    cases piece with
    | char c => exact hcut begun (hfits _ List.mem_cons_self n hn) h
    | name m =>
      have hm : names m := hfits _ List.mem_cons_self
      rw [fill, pending] at h
      by_cases hpending : m ∈ n :: later
      · rw [if_pos hpending] at h
        rcases List.mem_cons.mp hpending with rfl | hlater
        · refine ⟨[], fun m hm ↦ absurd hm List.not_mem_nil, ?_⟩
          rw [List.flatMap_nil, List.append_nil]
          rw [← List.append_assoc] at h
          exact List.prefix_of_prefix_length_le h (List.prefix_append _ _) (by simp)
        · rw [← List.append_assoc] at h
          obtain ⟨word, hword, hmade⟩ := ih hrest _ h
          refine ⟨m :: word, List.forall_mem_cons.mpr ⟨hlater, hword⟩, ?_⟩
          simpa using hmade
      · rw [if_neg hpending] at h
        obtain ⟨k, tail, hmark⟩ := List.exists_cons_of_ne_nil (hlegible.mark_ne_nil m hm)
        rw [hmark, List.cons_append] at h
        exact hcut begun (hlegible.apart m n hm hn k (by rw [hmark]; exact List.mem_cons_self)) h

/-- Replacing one value: the marks of its name come in, and nothing else changes. -/
theorem replace_pending (hlegible : Legible value mark names) (hn : names n)
    (hlast : StandsLast value later n) {template : List (Piece ν)}
    (hfits : Fits value names template) :
    replace (value n) (mark n) (fill (pending value mark (n :: later)) template) =
      fill (pending value mark later) template := by
  have hne : value n ≠ [] := hlegible.value_ne_nil n hn
  have hnot : n ∉ later := by
    intro hmem
    have hafter := hlast [n] (by simpa using hmem) [] (value n) (by simp)
    exact hne hafter
  induction template with
  | nil => rfl
  | cons piece template ih =>
    have hrest : Fits value names template := fun piece hpiece ↦
      hfits piece (List.mem_cons_of_mem _ hpiece)
    cases piece with
    | char c =>
      have hc : c ∉ value n := hfits _ List.mem_cons_self n hn
      rw [fill, fill, ← ih hrest]
      refine replace_of_not_prefix fun hprefixed ↦ ?_
      obtain ⟨d, tail, hvalue⟩ := List.exists_cons_of_ne_nil hne
      obtain ⟨after, hafter⟩ := hprefixed
      rw [hvalue, List.cons_append, List.cons.injEq] at hafter
      exact hc (by rw [hvalue, hafter.1]; exact List.mem_cons_self)
    | name m =>
      have hm : names m := hfits _ List.mem_cons_self
      rw [fill, fill, ← ih hrest]
      by_cases hsame : m = n
      · subst hsame
        rw [pending, if_pos List.mem_cons_self, pending, if_neg hnot]
        exact replace_self_append hne _
      · have hkept : pending value mark (n :: later) m = pending value mark later m := by
          simp [pending, hsame]
        rw [← hkept]
        refine replace_append_of_unmatched fun first last hsplit hmore hprefixed ↦ ?_
        by_cases hlater : m ∈ later
        · rw [pending, if_pos (List.mem_cons_of_mem n hlater)] at hsplit
          obtain ⟨word, hword, after, hafter⟩ := exists_word hlegible hn hrest last hprefixed
          -- The value begins inside the value of a later name, so it ends before the end.
          have hnone : after = [] := hlast (m :: word) (List.forall_mem_cons.mpr ⟨hlater, hword⟩)
            first after (by
              rw [List.flatMap_cons, hsplit, List.append_assoc first (value n), hafter]
              simp only [List.append_assoc])
          have hlength := congrArg List.length hafter
          rw [hnone] at hlength
          simp only [List.length_append, List.length_nil] at hlength
          have hpos := List.length_pos_iff.mpr hmore
          omega
        · have hmark : pending value mark (n :: later) m = mark m := if_neg (by simp [hsame, hlater])
          rw [hmark] at hsplit
          obtain ⟨c, last, rfl⟩ := List.exists_cons_of_ne_nil hmore
          obtain ⟨d, tail, hvalue⟩ := List.exists_cons_of_ne_nil hne
          obtain ⟨after, hafter⟩ := hprefixed
          rw [hvalue, List.cons_append, List.cons_append, List.cons.injEq] at hafter
          refine hlegible.apart m n hm hn c (by rw [hsplit]; simp) ?_
          rw [hvalue, ← hafter.1]
          exact List.mem_cons_self

/-- Every value is replaced by the mark of its name, and nothing else changes. -/
theorem replaceAll_pending (hlegible : Legible value mark names)
    (horder : ∀ n ∈ order, names n) (hclear : Clear value order) {template : List (Piece ν)}
    (hfits : Fits value names template) :
    replaceAll value mark order (fill (pending value mark order) template) = fill mark template := by
  induction order with
  | nil =>
    have hmarks : pending value mark [] = mark := funext fun n ↦ if_neg List.not_mem_nil
    rw [hmarks]
    rfl
  | cons n later ih =>
    have hn : names n := horder n List.mem_cons_self
    rw [replaceAll, List.foldl_cons, replace_pending hlegible hn hclear.1 hfits]
    exact ih (fun m hm ↦ horder m (List.mem_cons_of_mem n hm)) hclear.2

/-- Every value of a filled text comes back as its mark.
Assumes: every name is in the order, and the values are clear in it. -/
theorem replaceAll_fill (hlegible : Legible value mark names) (horder : ∀ n, n ∈ order ↔ names n)
    (hclear : Clear value order) {template : List (Piece ν)} (hfits : Fits value names template) :
    replaceAll value mark order (fill value template) = fill mark template := by
  have hfill : fill value template = fill (pending value mark order) template := by
    induction template with
    | nil => rfl
    | cons piece template ih =>
      have hrest := ih fun piece hpiece ↦ hfits piece (List.mem_cons_of_mem _ hpiece)
      cases piece with
      | char c => rw [fill, fill, hrest]
      | name n =>
        have hn : names n := hfits _ List.mem_cons_self
        rw [fill, fill, hrest, pending, if_pos ((horder n).mpr hn)]
  rw [hfill]
  exact replaceAll_pending hlegible (fun n hn ↦ (horder n).mp hn) hclear hfits

omit [DecidableEq ν] in
/-- Where the marks of a word of later names and one more come back, the value of the last name occurs
nowhere before its place. -/
theorem first_of_replaceAll (hlegible : Legible value mark names)
    (horder : ∀ m ∈ n :: later, names m) (hnodup : (n :: later).Nodup) {word : List ν}
    (hword : ∀ m ∈ word, m ∈ later)
    (h : replaceAll value mark (n :: later) (word.flatMap value ++ value n) =
      word.flatMap mark ++ mark n) (before after : Text)
    (hsplit : word.flatMap value ++ value n = before ++ value n ++ after) :
    (word.flatMap value).length ≤ before.length := by
  have hn : names n := horder n List.mem_cons_self
  have hlater : ∀ m ∈ later, names m := fun m hm ↦ horder m (List.mem_cons_of_mem n hm)
  have hnot : n ∉ later := (List.nodup_cons.mp hnodup).1
  have hvalues : ∀ c ∈ word.flatMap value ++ value n, ∃ m, names m ∧ c ∈ value m := by
    intro c hc
    rcases List.mem_append.mp hc with hc | hc
    · obtain ⟨m, hm, hc⟩ := List.mem_flatMap.mp hc
      exact ⟨m, hlater m (hword m hm), hc⟩
    · exact ⟨n, hn, hc⟩
  have hfree : Free value names (word.flatMap mark ++ mark n) := by
    intro m hm c hc
    rcases List.mem_append.mp hc with hc | hc
    · obtain ⟨k, hk, hc⟩ := List.mem_flatMap.mp hc
      exact hlegible.apart k m (hlater k (hword k hk)) hm c hc
    · exact hlegible.apart n m hn hm c hc
  have hcases := @replace_cases (value n) (mark n) (hlegible.value_ne_nil n hn)
    (word.flatMap value ++ value n)
  rcases hcases with ⟨-, hnone⟩ | ⟨early, rest, hparts, hreplaced, hearly⟩
  · exact absurd ⟨word.flatMap value, [], by simp⟩ hnone
  have hcome : replaceAll value mark later early ++ mark n ++ replaceAll value mark (n :: later) rest =
      word.flatMap mark ++ mark n := by
    rw [← h, replaceAll, replaceAll, replaceAll, List.foldl_cons, List.foldl_cons, hreplaced]
    exact (replaceAll_append_mark hlegible hlater hn early _).symm
  rw [hparts] at hvalues
  rw [← hcome] at hfree
  have hbefore : ∀ c ∈ early, ∃ m, names m ∧ c ∈ value m := fun c hc ↦ hvalues c (by simp [hc])
  have hbehind : ∀ c ∈ rest, ∃ m, names m ∧ c ∈ value m := fun c hc ↦ hvalues c (by simp [hc])
  obtain ⟨first, hfirst, hearlyValues, hearlyMarks⟩ := exists_word_of_replaceAll hlegible hlater
    hbefore fun m hm c hc ↦ hfree m hm c (by simp [hc])
  obtain ⟨last, hlast, -, hrestMarks⟩ := exists_word_of_replaceAll hlegible horder
    hbehind fun m hm c hc ↦ hfree m hm c (by simp [hc])
  -- The marks of both words are the same, so what stands before the first occurrence is the word.
  have hsame : word ++ n :: [] = first ++ n :: last := by
    refine hlegible.told _ _ ?_ ?_ ?_
    · intro m hm
      rcases List.mem_append.mp hm with hm | hm
      · exact hlater m (hword m hm)
      · rw [List.mem_singleton.mp hm]
        exact hn
    · intro m hm
      rcases List.mem_append.mp hm with hm | hm
      · exact hlater m (hfirst m hm)
      · rcases List.mem_cons.mp hm with rfl | hm
        · exact hn
        · exact horder m (hlast m hm)
    · rw [hearlyMarks, hrestMarks] at hcome
      simpa using hcome.symm
  have hwhole : word = first := ((List.append_cons_inj_of_notMem (fun hmem ↦ hnot (hword n hmem))
    List.not_mem_nil).mp hsame).1
  rw [hearlyValues, ← hwhole] at hearly
  exact hearly before after hsplit

omit [DecidableEq ν] in
/-- A name whose marks come back is in the order. -/
theorem mem_order_of_replaceAll (hlegible : Legible value mark names)
    (horder : ∀ n ∈ order, names n) (hn : names n)
    (h : replaceAll value mark order (value n) = mark n) : n ∈ order := by
  have hfree : Free value names (replaceAll value mark order (value n)) := by
    rw [h]
    exact fun m hm c hc ↦ hlegible.apart n m hn hm c hc
  obtain ⟨word, hword, -, hmarks⟩ :=
    exists_word_of_replaceAll hlegible horder (fun c hc ↦ ⟨n, hn, hc⟩) hfree
  have hsame : word = [n] := by
    refine hlegible.told word [n] (fun m hm ↦ horder m (hword m hm)) (by simpa using hn) ?_
    rw [← hmarks, h]
    simp
  exact hword n (by simp [hsame])

/-- Values whose marks come back in every word of names are clear. -/
theorem clear_of_replaceAll (hlegible : Legible value mark names)
    (horder : ∀ n ∈ order, names n) (hnodup : order.Nodup)
    (h : ∀ word : List ν, (∀ n ∈ word, names n) →
      replaceAll value mark order (fill (pending value mark order) (word.map .name)) =
        word.flatMap mark) : Clear value order := by
  induction order with
  | nil => trivial
  | cons n later ih =>
    have hn : names n := horder n List.mem_cons_self
    have hlater : ∀ m ∈ later, names m := fun m hm ↦ horder m (List.mem_cons_of_mem n hm)
    have hnot : n ∉ later := (List.nodup_cons.mp hnodup).1
    have hword (word : List ν) (hmem : ∀ m ∈ word, m ∈ n :: later) :
        fill (pending value mark (n :: later)) (word.map .name) = word.flatMap value := by
      rw [fill_names]
      exact List.flatMap_congr fun m hm ↦ if_pos (hmem m hm)
    have hlast : StandsLast value later n := by
      intro word hmem before after hsplit
      have hnames : ∀ m ∈ word ++ [n], m ∈ n :: later := by
        intro m hm
        rcases List.mem_append.mp hm with hm | hm
        · exact List.mem_cons_of_mem n (hmem m hm)
        · rw [List.mem_singleton.mp hm]
          exact List.mem_cons_self
      have hcome := h (word ++ [n]) fun m hm ↦ horder m (hnames m hm)
      rw [hword _ hnames] at hcome
      simp only [List.flatMap_append, List.flatMap_singleton] at hcome
      have hearly := first_of_replaceAll hlegible horder hnodup hmem hcome
      have hlength := congrArg List.length hsplit
      have hfirst := hearly before after hsplit
      simp only [List.length_append] at hlength
      exact List.length_eq_zero_iff.mp (by omega)
    refine ⟨hlast, ih hlater (List.nodup_cons.mp hnodup).2 fun word hnames ↦ ?_⟩
    have hfits : Fits value names (word.map .name) := by
      intro piece hpiece
      obtain ⟨m, hm, rfl⟩ := List.mem_map.mp hpiece
      exact hnames m hm
    rw [← h word hnames, replaceAll, replaceAll, List.foldl_cons,
      replace_pending hlegible hn hlast hfits]

/-- The order has every name and the values are clear in it exactly where the marks of every word of
names come back. -/
theorem clears_iff (hlegible : Legible value mark names) (horder : ∀ n ∈ order, names n)
    (hnodup : order.Nodup) : (∀ n, names n → n ∈ order) ∧ Clear value order ↔
      ∀ word : List ν, (∀ n ∈ word, names n) →
        replaceAll value mark order (word.flatMap value) = word.flatMap mark := by
  constructor
  · rintro ⟨hall, hclear⟩ word hword
    have hfits : Fits value names (word.map .name) := by
      intro piece hpiece
      obtain ⟨n, hn, rfl⟩ := List.mem_map.mp hpiece
      exact hword n hn
    have hcome := replaceAll_fill hlegible (fun n ↦ ⟨horder n, hall n⟩) hclear hfits
    rwa [fill_names, fill_names] at hcome
  · intro h
    have hall : ∀ n, names n → n ∈ order := by
      intro n hn
      have hcome := h [n] (by simpa using hn)
      rw [List.flatMap_singleton, List.flatMap_singleton] at hcome
      exact mem_order_of_replaceAll hlegible horder hn hcome
    refine ⟨hall, clear_of_replaceAll hlegible horder hnodup fun word hword ↦ ?_⟩
    rw [fill_names, ← h word hword]
    congr 1
    exact List.flatMap_congr fun n hn ↦ if_pos (hall n (hword n hn))

end Nodal.Foundation.Marks
