import Mathlib.Data.List.Chain
import Nodal.Foundation.Text

/-!
# Shapes of the texts a model holds

`model/scalar.rs`: a text that reaches the store or a file has a shape, which is a cap on its length and a
rule for its structure. A value carries its shape, so no text without it can be one.
-/

set_option autoImplicit false

namespace Nodal.Model

open Foundation

/-! ### Scalars -/

/-- A text with a shape. -/
structure Scalar (shape : Text → Bool) where
  text : Text
  shaped : shape text = true
  deriving DecidableEq

namespace Scalar

variable {shape : Text → Bool}

/-- Validate a text and wrap it. -/
def parse (text : Text) : Option (Scalar shape) :=
  if h : shape text = true then some ⟨text, h⟩ else none

theorem parse_text (scalar : Scalar shape) : parse scalar.text = some scalar :=
  dif_pos scalar.shaped

end Scalar

/-- Not empty, no longer than a cap, and of a structure. -/
def accepts (cap : ℕ) (structured : Text → Bool) (value : Text) : Bool :=
  value ≠ [] && value.length ≤ cap && structured value

/-- A control character. -/
def isControl (c : Char) : Bool := c.toNat < 0x20 || (0x7f ≤ c.toNat && c.toNat ≤ 0x9f)

/-- A single line of text for a person to read. -/
def LINE : Text → Bool := accepts 255 fun value ↦ !value.any isControl

/-- A single word for a machine to read. -/
def TOKEN : Text → Bool := accepts 255 fun value ↦ value.all fun c ↦ 0x21 ≤ c.toNat && c.toNat ≤ 0x7e

/-- The name of an environment variable. -/
def ENV_NAME : Text → Bool := accepts 255 fun value ↦
  value.head?.any (fun c ↦ c.isUpper || c = '_') &&
    value.tail.all fun c ↦ c.isUpper || c.isDigit || c = '_'

def isSlug (value : Text) : Bool :=
  value.head? ≠ some '-' && value.getLast? ≠ some '-' && !decide ("--".toList <:+: value) &&
    value.all fun c ↦ c.isLower || c.isDigit || c = '-'

/-- Lowercase alphanumerics in dash-separated groups. -/
def SLUG : Text → Bool := accepts 64 isSlug

/-! ### Slugs -/

/-- A character of a group. -/
def isGroup (c : Char) : Bool := c.isLower || c.isDigit

theorem isGroup_ne_dash {c : Char} (h : isGroup c = true) : c ≠ '-' := by
  rintro rfl
  revert h
  decide

/-- Groups with a dash between two. -/
structure Grouped (value : Text) : Prop where
  head : ∀ c ∈ value.head?, c ≠ '-'
  last : ∀ c ∈ value.getLast?, c ≠ '-'
  chain : value.IsChain fun first next ↦ ¬(first = '-' ∧ next = '-')
  chars : ∀ c ∈ value, isGroup c = true ∨ c = '-'

theorem isSlug_of_grouped {value : Text} (h : Grouped value) : isSlug value = true := by
  have hdouble : ¬"--".toList <:+: value := by
    rintro ⟨before, after, hvalue⟩
    have hcut : value = before ++ '-' :: '-' :: after := by
      rw [← hvalue]
      simp
    exact List.isChain_iff_forall_rel_of_append_cons_cons.mp h.chain hcut ⟨rfl, rfl⟩
  simp only [isSlug, Bool.and_eq_true, decide_eq_true_eq, Bool.not_eq_true', decide_eq_false_iff_not,
    List.all_eq_true]
  refine ⟨⟨⟨fun hhead ↦ h.head _ hhead rfl, fun hlast ↦ h.last _ hlast rfl⟩, hdouble⟩, fun c hc ↦ ?_⟩
  rw [Bool.or_eq_true, decide_eq_true_eq]
  exact h.chars c hc

theorem grouped_of_isSlug {value : Text} (h : isSlug value = true) : Grouped value := by
  simp only [isSlug, Bool.and_eq_true, decide_eq_true_eq, Bool.not_eq_true', decide_eq_false_iff_not,
    List.all_eq_true] at h
  obtain ⟨⟨⟨hhead, hlast⟩, hdouble⟩, hchars⟩ := h
  refine ⟨?_, ?_, ?_, fun c hc ↦ ?_⟩
  · rintro c hc rfl
    exact hhead hc
  · rintro c hc rfl
    exact hlast hc
  · rw [List.isChain_iff_forall_rel_of_append_cons_cons]
    rintro first next before after rfl ⟨rfl, rfl⟩
    exact hdouble ⟨before, after, by simp⟩
  · have hc := hchars c hc
    rwa [Bool.or_eq_true, decide_eq_true_eq] at hc

theorem grouped_of_all {group : Text} (h : ∀ c ∈ group, isGroup c = true) : Grouped group where
  head c hc := isGroup_ne_dash (h c (List.mem_of_mem_head? hc))
  last c hc := isGroup_ne_dash (h c (List.mem_of_getLast? hc))
  chain := by
    rw [List.isChain_iff_forall_rel_of_append_cons_cons]
    rintro a b before after rfl ⟨rfl, -⟩
    exact isGroup_ne_dash (h _ (List.mem_append_right _ List.mem_cons_self)) rfl
  chars c hc := .inl (h c hc)

/-- Groups after groups and a dash. -/
theorem Grouped.append {value later : Text} (h : Grouped value) (hvalue : value ≠ [])
    (hlater : Grouped later) (hne : later ≠ []) : Grouped (value ++ '-' :: later) := by
  obtain ⟨first, rest, rfl⟩ := List.exists_cons_of_ne_nil hvalue
  obtain ⟨start, more, rfl⟩ := List.exists_cons_of_ne_nil hne
  have hstart : start ≠ '-' := hlater.head start rfl
  refine ⟨h.head, ?_, ?_, ?_⟩
  · rw [List.getLast?_append_of_ne_nil _ (List.cons_ne_nil _ _), List.getLast?_cons_cons]
    exact hlater.last
  · rw [List.isChain_append]
    refine ⟨h.chain, List.isChain_cons_cons.mpr ⟨fun hboth ↦ hstart hboth.2, hlater.chain⟩, ?_⟩
    intro c hc d _ hboth
    exact h.last c hc hboth.1
  · intro c hc
    rcases List.mem_append.mp hc with hhere | hthere
    · exact h.chars c hhere
    · rcases List.mem_cons.mp hthere with rfl | hthere
      · exact .inr rfl
      · exact hlater.chars c hthere

/-- A text whose dashes each stand after a character and before one that is no dash is its groups. -/
theorem Grouped.groups {value : Text} (h : Grouped value) (hne : value ≠ []) :
    ∃ (group : Text) (groups : List Text),
      (∀ part ∈ group :: groups, part ≠ [] ∧ ∀ c ∈ part, isGroup c = true) ∧
        value = group ++ groups.flatMap ('-' :: ·) := by
  -- Away from the head, the first group may be empty.
  have hgroups : ∃ (group : Text) (groups : List Text), (∀ c ∈ group, isGroup c = true) ∧
      (∀ part ∈ groups, part ≠ [] ∧ ∀ c ∈ part, isGroup c = true) ∧
        value = group ++ groups.flatMap ('-' :: ·) := by
    obtain ⟨-, hlast, hchain, hchars⟩ := h
    clear hne
    induction value with
    | nil => exact ⟨[], [], List.forall_mem_nil _, List.forall_mem_nil _, rfl⟩
    | cons c rest ih =>
      obtain ⟨hc, hrest⟩ := List.forall_mem_cons.mp hchars
      have htail : ∀ d ∈ rest.getLast?, d ≠ '-' := by
        intro d hd
        exact hlast d (by rw [List.getLast?_cons, Option.mem_some_iff, Option.mem_def.mp hd]; rfl)
      obtain ⟨group, groups, hgroup, hall, rfl⟩ := ih htail hchain.tail hrest
      rcases hc with hc | rfl
      · exact ⟨c :: group, groups, List.forall_mem_cons.mpr ⟨hc, hgroup⟩, hall, rfl⟩
      · refine ⟨[], group :: groups, List.forall_mem_nil _, List.forall_mem_cons.mpr ⟨⟨?_, hgroup⟩, hall⟩,
          rfl⟩
        rintro rfl
        cases groups with
        | nil => exact hlast '-' rfl rfl
        | cons next more => exact (List.isChain_cons_cons.mp hchain).1 ⟨rfl, rfl⟩
  obtain ⟨group, groups, hgroup, hall, rfl⟩ := hgroups
  refine ⟨group, groups, List.forall_mem_cons.mpr ⟨⟨?_, hgroup⟩, hall⟩, rfl⟩
  rintro rfl
  cases groups with
  | nil => exact hne rfl
  | cons next more => exact h.head '-' rfl rfl

theorem grouped_of_groups {group : Text} {groups : List Text}
    (h : ∀ part ∈ group :: groups, part ≠ [] ∧ ∀ c ∈ part, isGroup c = true) :
    Grouped (group ++ groups.flatMap ('-' :: ·)) := by
  induction groups generalizing group with
  | nil =>
    rw [List.flatMap_nil, List.append_nil]
    exact grouped_of_all (h group List.mem_cons_self).2
  | cons next more ih =>
    obtain ⟨hgroup, hmore⟩ := List.forall_mem_cons.mp h
    rw [List.flatMap_cons, List.cons_append]
    refine (grouped_of_all hgroup.2).append hgroup.1 (ih hmore) ?_
    exact List.append_ne_nil_of_left_ne_nil (hmore next List.mem_cons_self).1 _

/-- What groups lack for a slug is that they are not longer than one may be. -/
theorem SLUG_iff {value : Text} (h : Grouped value) :
    SLUG value = true ↔ value ≠ [] ∧ value.length ≤ 64 := by
  simp [SLUG, accepts, isSlug_of_grouped h]

/-- What the shape of a slug says of its text. -/
theorem slug_spec (slug : Scalar SLUG) :
    (slug.text ≠ [] ∧ Grouped slug.text) ∧ slug.text.length ≤ 64 := by
  have hshaped := slug.shaped
  simp only [SLUG, accepts, Bool.and_eq_true, decide_eq_true_eq] at hshaped
  exact ⟨⟨hshaped.1.1, grouped_of_isSlug hshaped.2⟩, hshaped.1.2⟩

end Nodal.Model
