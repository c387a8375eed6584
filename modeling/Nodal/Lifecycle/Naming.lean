import Mathlib.Data.List.Nodup
import Mathlib.Data.List.Perm.Subperm
import Nodal.Model.Scalar
import Nodal.Sweep.Rows

/-!
# The handle a create gives a unit

`lifecycle/ops/new.rs`: a handle is chosen, or made of the first two words of a line of text, and given a
number until no unit of the project holds it. The words are of a slug's structure whatever the text is, and
so are they with a number after them; what may be missing is room, since a slug has at most 64 characters
(`choose_name_iff`).
-/

set_option autoImplicit false

namespace Nodal.Naming

open Foundation Text Model Sweep

/-! ### What is chosen -/

abbrev Handle := Scalar SLUG

abbrev Objective := Scalar LINE

/-- Why a name was refused. -/
structure InvalidValue where
  kind : Text
  value : Text
  deriving DecidableEq

/-- How many words of a stated objective become the handle. -/
def SLUG_WORDS : ℕ := 2

/-- The handle of a unit nothing was stated for. -/
def DEFAULT_SLUG : Text := "unit".toList

/-- How many handles are tried. -/
def SLUG_ATTEMPTS : ℕ := 1000

def parseSlug (text : Text) : Except InvalidValue Handle :=
  match Scalar.parse text with
  | some slug => .ok slug
  | none => .error ⟨"slug".toList, text⟩

/-- The first words of a text, each a run of letters and digits. -/
def words (text : Text) : List Text :=
  (((splitWhere (fun c ↦ !c.isAlphanum) text).filter (· ≠ [])).take SLUG_WORDS).map
    fun word ↦ word.map Char.toLower

/-- The name that is made of a text. -/
def stated (text : Text) : Text :=
  if words text = [] then DEFAULT_SLUG else List.intercalate ['-'] (words text)

def deriveSlug (objective : Option Objective) : Except InvalidValue Handle :=
  parseSlug (stated (objective.elim [] Scalar.text))

/-- A name with its attempt's number, which the first does not carry. -/
def numbered (name : Text) (attempt : ℕ) : Text :=
  if attempt = 1 then name else name ++ '-' :: decimal attempt

def suffixed (slug : Handle) (attempt : ℕ) : Except InvalidValue Handle :=
  if attempt = 1 then .ok slug else parseSlug (numbered slug.text attempt)

/-- The handle, and the name its branch is built from. -/
structure Name where
  slug : Handle
  branch : Text
  deriving DecidableEq

section Registry

variable (registry : Registry) (project : ProjectId)

/-- Whether a unit of the project holds a handle. -/
def held (slug : Handle) : Bool :=
  (registry.findBySlug project (String.ofList slug.text)).any fun unit ↦ decide (unit.status ≠ .archived)

/-- The first of some attempts whose handle is free. -/
def attempts (asked : Handle) : List ℕ → Except InvalidValue Name
  | [] => .error ⟨"unit handle".toList, asked.text⟩
  | attempt :: rest => do
    let slug ← suffixed asked attempt
    if held registry project slug then attempts asked rest else return ⟨slug, asked.text⟩

def chooseName (chosen : Option Handle) (deriveFrom : Option Objective) : Except InvalidValue Name := do
  let asked ← match chosen with
    | some name => .ok name
    | none => deriveSlug deriveFrom
  attempts registry project asked (List.range' 1 SLUG_ATTEMPTS)

/-- A unit of the project that is not archived has a text as its handle. -/
def Held (text : Text) : Prop :=
  ∃ unit ∈ registry.units.values, unit.projectId = project ∧ unit.slug = String.ofList text ∧
    unit.status ≠ .archived

/-- The units of the project that hold a handle. -/
def holders : List UnitRow :=
  registry.units.values.filter fun unit ↦ unit.projectId = project ∧ unit.status ≠ .archived

end Registry

/-! ### Names have the structure of a handle -/

theorem toNat_lt_of_isAlphanum {c : Char} (h : c.isAlphanum = true) : c.toNat < 128 := by
  rcases isAlphanum_iff.mp h with hupper | hlower | hdigit
  · have hle := (isUpper_iff.mp hupper).2
    omega
  · have hle := (isLower_iff.mp hlower).2
    omega
  · have hle := (isDigit_iff.mp hdigit).2
    omega

theorem isGroup_toLower_ascii : ∀ n < 128, (Char.ofNat n).isAlphanum = true →
    isGroup (Char.ofNat n).toLower = true := by
  decide

theorem isGroup_toLower {c : Char} (h : c.isAlphanum = true) : isGroup c.toLower = true := by
  have hascii := isGroup_toLower_ascii c.toNat (toNat_lt_of_isAlphanum h)
  rw [Char.ofNat_toNat] at hascii
  exact hascii h

theorem words_groups {text word : Text} (h : word ∈ words text) :
    word ≠ [] ∧ ∀ c ∈ word, isGroup c = true := by
  obtain ⟨part, hpart, rfl⟩ := List.mem_map.mp h
  obtain ⟨hsplit, hne⟩ := List.mem_filter.mp (List.mem_of_mem_take hpart)
  rw [decide_eq_true_eq] at hne
  constructor
  · exact fun hnil ↦ hne (List.map_eq_nil_iff.mp hnil)
  · intro c hc
    obtain ⟨d, hd, rfl⟩ := List.mem_map.mp hc
    have halnum := not_cut_of_mem_splitWhere hsplit d hd
    exact isGroup_toLower (by simpa using halnum)

theorem intercalate_cons_cons (word next : Text) (rest : List Text) :
    List.intercalate ['-'] (word :: next :: rest) =
      word ++ '-' :: List.intercalate ['-'] (next :: rest) := by
  simp [List.intercalate]

theorem intercalate_groups {groups : List Text} (hne : groups ≠ [])
    (h : ∀ group ∈ groups, group ≠ [] ∧ ∀ c ∈ group, isGroup c = true) :
    List.intercalate ['-'] groups ≠ [] ∧ Grouped (List.intercalate ['-'] groups) := by
  induction groups with
  | nil => exact absurd rfl hne
  | cons group groups ih =>
    obtain ⟨⟨hgroup, hall⟩, hrest⟩ := List.forall_mem_cons.mp h
    cases groups with
    | nil =>
      rw [List.intercalate_singleton]
      exact ⟨hgroup, grouped_of_all hall⟩
    | cons next groups =>
      obtain ⟨hlater, hgrouped⟩ := ih (List.cons_ne_nil _ _) hrest
      rw [intercalate_cons_cons]
      constructor
      · simp [hgroup]
      · exact (grouped_of_all hall).append hgroup hgrouped hlater

/-- Whatever a text is, the name made of it has the structure of a handle. -/
theorem stated_grouped (text : Text) : stated text ≠ [] ∧ Grouped (stated text) := by
  unfold stated
  split_ifs with hnone
  · exact ⟨by decide, grouped_of_all (List.all_eq_true.mp rfl)⟩
  · exact intercalate_groups hnone fun _ hword ↦ words_groups hword

theorem numbered_grouped {name : Text} (h : name ≠ [] ∧ Grouped name) (attempt : ℕ) :
    numbered name attempt ≠ [] ∧ Grouped (numbered name attempt) := by
  unfold numbered
  split_ifs
  · exact h
  · have hdigits : ∀ c ∈ decimal attempt, isGroup c = true := by
      intro c hc
      rw [isGroup, isDigit_of_mem_decimal hc, Bool.or_true]
    constructor
    · simp
    · exact h.2.append h.1 (grouped_of_all hdigits) (decimal_ne_nil attempt)

/-! ### What is free -/

section Free

variable {registry : Registry} {project : ProjectId}

theorem held_iff {slug : Handle} : held registry project slug = true ↔ Held registry project slug.text := by
  rw [held, Option.any_eq_true]
  constructor
  · rintro ⟨unit, hfound, hstatus⟩
    rw [decide_eq_true_eq] at hstatus
    obtain ⟨hmem, hproject, hslug⟩ := Registry.findBySlug_spec hfound
    exact ⟨unit, hmem, hproject, hslug, hstatus⟩
  · rintro ⟨unit, hmem, rfl, hslug, hstatus⟩
    have hfound := Registry.findBySlug_of_held hmem hstatus
    rw [hslug] at hfound
    exact ⟨unit, hfound, decide_eq_true hstatus⟩

theorem parseSlug_of_le {text : Text} (h : text ≠ [] ∧ Grouped text) (hle : text.length ≤ 64) :
    ∃ slug : Handle, parseSlug text = .ok slug ∧ slug.text = text := by
  have hslug : SLUG text = true := (SLUG_iff h.2).mpr ⟨h.1, hle⟩
  refine ⟨⟨text, hslug⟩, ?_, rfl⟩
  rw [parseSlug, Scalar.parse, dif_pos hslug]

theorem parseSlug_of_lt {text : Text} (hlt : 64 < text.length) :
    parseSlug text = .error ⟨"slug".toList, text⟩ := by
  have hslug : ¬SLUG text = true := by
    rw [SLUG, accepts, Bool.and_eq_true, Bool.and_eq_true, decide_eq_true_eq, decide_eq_true_eq]
    omega
  rw [parseSlug, Scalar.parse, dif_neg hslug]

theorem length_decimal_le {n m : ℕ} (h : n ≤ m) : (decimal n).length ≤ (decimal m).length := by
  have hpos : 0 < (decimal m).length := List.length_pos_iff.mpr (decimal_ne_nil m)
  have hm := (Nat.length_toDigits_le_iff (b := 10) (by decide) hpos).mp (le_refl (decimal m).length)
  exact (Nat.length_toDigits_le_iff (by decide) hpos).mpr (h.trans_lt hm)

/-- A later attempt's name is no shorter. -/
theorem length_numbered_le (name : Text) {first later : ℕ} (h : first ≤ later) (hpos : 1 ≤ first) :
    (numbered name first).length ≤ (numbered name later).length := by
  have hdecimal := length_decimal_le h
  unfold numbered
  split_ifs
  · exact le_rfl
  · simp
  · omega
  · simp only [List.length_append, List.length_cons]
    omega

theorem suffixed_of_le (asked : Handle) {attempt : ℕ} (hle : (numbered asked.text attempt).length ≤ 64) :
    ∃ slug : Handle, suffixed asked attempt = .ok slug ∧ slug.text = numbered asked.text attempt := by
  unfold suffixed
  by_cases hone : attempt = 1
  · exact ⟨asked, if_pos hone, (if_pos hone).symm⟩
  · rw [if_neg hone]
    exact parseSlug_of_le (numbered_grouped (slug_spec asked).1 attempt) hle

theorem suffixed_of_lt (asked : Handle) {attempt : ℕ} (hlt : 64 < (numbered asked.text attempt).length) :
    suffixed asked attempt = .error ⟨"slug".toList, numbered asked.text attempt⟩ := by
  have hone : attempt ≠ 1 := by
    rintro rfl
    rw [numbered, if_pos rfl] at hlt
    exact absurd (slug_spec asked).2 (Nat.not_le.mpr hlt)
  rw [suffixed, if_neg hone]
  exact parseSlug_of_lt hlt

/-- An attempt whose name has room and is free. -/
def Fits (registry : Registry) (project : ProjectId) (name : Text) (attempt : ℕ) : Prop :=
  (numbered name attempt).length ≤ 64 ∧ ¬Held registry project (numbered name attempt)

/-- One attempt: a name that has no room ends the search, one that is held moves it on. -/
theorem attempts_cons (asked : Handle) (attempt : ℕ) (rest : List ℕ) :
    (64 < (numbered asked.text attempt).length ∧
      attempts registry project asked (attempt :: rest) =
        .error ⟨"slug".toList, numbered asked.text attempt⟩) ∨
    (numbered asked.text attempt).length ≤ 64 ∧
      (Held registry project (numbered asked.text attempt) ∧
        attempts registry project asked (attempt :: rest) = attempts registry project asked rest ∨
      ¬Held registry project (numbered asked.text attempt) ∧ ∃ slug : Handle,
        slug.text = numbered asked.text attempt ∧
        attempts registry project asked (attempt :: rest) = .ok ⟨slug, asked.text⟩) := by
  rcases Nat.lt_or_ge 64 (numbered asked.text attempt).length with hlt | hle
  · refine .inl ⟨hlt, ?_⟩
    rw [attempts, suffixed_of_lt asked hlt]
    rfl
  · obtain ⟨slug, hslug, htext⟩ := suffixed_of_le asked hle
    refine .inr ⟨hle, ?_⟩
    by_cases hheld : held registry project slug = true
    · refine .inl ⟨htext ▸ held_iff.mp hheld, ?_⟩
      rw [attempts, hslug]
      exact if_pos hheld
    · refine .inr ⟨fun h ↦ hheld (held_iff.mpr (htext ▸ h)), slug, htext, ?_⟩
      rw [attempts, hslug]
      exact if_neg hheld

/-- The name that is found is free, and is the one asked for where it is tried and free. -/
theorem attempts_ok {asked : Handle} {tried : List ℕ} {name : Name}
    (h : attempts registry project asked tried = .ok name) :
    ¬Held registry project name.slug.text ∧ name.branch = asked.text := by
  induction tried with
  | nil => cases h
  | cons attempt rest ih =>
    rcases attempts_cons asked attempt rest with ⟨-, herror⟩ | ⟨-, ⟨-, hnext⟩ | ⟨hfree, slug, htext, hok⟩⟩
    · rw [herror] at h
      cases h
    · exact ih (hnext ▸ h)
    · rw [hok] at h
      cases h
      rw [htext]
      exact ⟨hfree, rfl⟩

/-- A name is found where one of the names that are tried fits. Assumes: they are tried in order. -/
theorem attempts_isOk_iff {asked : Handle} {tried : List ℕ} (hsorted : tried.Pairwise (· < ·))
    (hpos : ∀ attempt ∈ tried, 1 ≤ attempt) :
    (∃ name, attempts registry project asked tried = .ok name) ↔
      ∃ attempt ∈ tried, Fits registry project asked.text attempt := by
  induction tried with
  | nil => simp [attempts]
  | cons attempt rest ih =>
    obtain ⟨hfirst, hlater⟩ := List.pairwise_cons.mp hsorted
    have ih := ih hlater fun other hother ↦ hpos other (List.mem_cons_of_mem _ hother)
    rcases attempts_cons asked attempt rest with ⟨hlong, herror⟩ | ⟨hle, ⟨hheld, hnext⟩ | ⟨hfree, slug, -, hok⟩⟩
    · constructor
      · rintro ⟨name, hname⟩
        rw [herror] at hname
        cases hname
      · -- No later name is shorter than the one that had no room.
        rintro ⟨other, hother, hroom, -⟩
        have hlonger : (numbered asked.text attempt).length ≤ (numbered asked.text other).length := by
          rcases List.mem_cons.mp hother with rfl | hother
          · exact le_rfl
          · exact length_numbered_le _ (hfirst other hother).le (hpos attempt List.mem_cons_self)
        omega
    · rw [hnext, ih]
      constructor
      · rintro ⟨other, hother, hfits⟩
        exact ⟨other, List.mem_cons_of_mem _ hother, hfits⟩
      · rintro ⟨other, hother, hfits⟩
        rcases List.mem_cons.mp hother with rfl | hother
        · exact absurd hheld hfits.2
        · exact ⟨other, hother, hfits⟩
    · exact ⟨fun _ ↦ ⟨attempt, List.mem_cons_self, hle, hfree⟩, fun _ ↦ ⟨_, hok⟩⟩

/-- Where the name that is asked for is free, it is the one found. -/
theorem attempts_first {asked : Handle} {rest : List ℕ} {name : Name}
    (h : attempts registry project asked (1 :: rest) = .ok name)
    (hfree : ¬Held registry project asked.text) : name.slug.text = asked.text := by
  have hone : numbered asked.text 1 = asked.text := if_pos rfl
  have hstep := @attempts_cons registry project asked 1 rest
  rw [hone] at hstep
  rcases hstep with ⟨-, herror⟩ | ⟨-, ⟨hheld, -⟩ | ⟨-, slug, htext, hok⟩⟩
  · rw [herror] at h
    cases h
  · exact absurd hheld hfree
  · rw [hok] at h
    cases h
    exact htext

/-! ### The handle of a create -/

/-- The name a create asks for: the one a person chose, or the one made of what was stated. -/
def askedName (chosen : Option Handle) (deriveFrom : Option Objective) : Text :=
  chosen.elim (stated (deriveFrom.elim [] Scalar.text)) Scalar.text

theorem mem_attempts {attempt : ℕ} :
    attempt ∈ List.range' 1 SLUG_ATTEMPTS ↔ 1 ≤ attempt ∧ attempt ≤ SLUG_ATTEMPTS := by
  rw [List.mem_range'_1, SLUG_ATTEMPTS]
  omega

/-- A create either has no room for the name it asks for, or tries it and what follows. -/
theorem chooseName_cases (chosen : Option Handle) (deriveFrom : Option Objective) :
    (64 < (askedName chosen deriveFrom).length ∧ ∃ error,
      chooseName registry project chosen deriveFrom = .error error) ∨
    ∃ asked : Handle, asked.text = askedName chosen deriveFrom ∧
      chooseName registry project chosen deriveFrom =
        attempts registry project asked (List.range' 1 SLUG_ATTEMPTS) := by
  cases chosen with
  | some name => exact .inr ⟨name, rfl, rfl⟩
  | none =>
    rcases Nat.lt_or_ge 64 (askedName none deriveFrom).length with hlt | hle
    · refine .inl ⟨hlt, ⟨"slug".toList, askedName none deriveFrom⟩, ?_⟩
      have hderive : deriveSlug deriveFrom = .error ⟨"slug".toList, askedName none deriveFrom⟩ :=
        parseSlug_of_lt hlt
      rw [chooseName, hderive]
      rfl
    · obtain ⟨asked, hasked, htext⟩ := parseSlug_of_le (stated_grouped _) hle
      have hderive : deriveSlug deriveFrom = .ok asked := hasked
      refine .inr ⟨asked, htext, ?_⟩
      rw [chooseName, hderive]
      rfl

theorem numbered_injective (name : Text) : Function.Injective (numbered name) := by
  have hdecimal {n m : ℕ} (h : decimal n = decimal m) : n = m := by
    have hn := readDigits_decimal n
    rw [h, readDigits_decimal] at hn
    exact (Option.some_inj.mp hn).symm
  intro first later h
  unfold numbered at h
  split_ifs at h with hfirst hlater hlater
  · rw [hfirst, hlater]
  · have hlength := congrArg List.length h
    simp at hlength
  · have hlength := congrArg List.length h
    simp at hlength
  · exact hdecimal (List.cons.inj (List.append_cancel_left h)).2

/-- Fewer units hold a handle than names are tried, so one of the names is free. -/
theorem exists_free (name : Text) (h : (holders registry project).length < SLUG_ATTEMPTS) :
    ∃ attempt ∈ List.range' 1 SLUG_ATTEMPTS, ¬Held registry project (numbered name attempt) := by
  by_contra hall
  have hheld (attempt : ℕ) (htried : attempt ∈ List.range' 1 SLUG_ATTEMPTS) :
      Held registry project (numbered name attempt) := by
    by_contra hfree
    exact hall ⟨attempt, htried, hfree⟩
  have hsubset : (List.range' 1 SLUG_ATTEMPTS).map (fun attempt ↦ String.ofList (numbered name attempt)) ⊆
      (holders registry project).map UnitRow.slug := by
    intro slug hslug
    obtain ⟨attempt, htried, rfl⟩ := List.mem_map.mp hslug
    obtain ⟨unit, hmem, hproject, hunit, hstatus⟩ := hheld attempt htried
    refine List.mem_map.mpr ⟨unit, List.mem_filter.mpr ⟨hmem, ?_⟩, hunit⟩
    exact decide_eq_true ⟨hproject, hstatus⟩
  have hinjective : Function.Injective fun attempt ↦ String.ofList (numbered name attempt) := by
    intro first later heq
    exact numbered_injective name (String.ofList_injective heq)
  have hnodup := List.Nodup.map hinjective (List.nodup_range' (s := 1) (n := SLUG_ATTEMPTS))
  have hlength := (List.subperm_of_subset hnodup hsubset).length_le
  rw [List.length_map, List.length_map, List.length_range'] at hlength
  omega

theorem length_numbered_of_le {name : Text} (h : name.length ≤ 59) {attempt : ℕ}
    (hattempt : attempt ≤ SLUG_ATTEMPTS) : (numbered name attempt).length ≤ 64 := by
  have hdigits : (decimal attempt).length ≤ 4 := by
    refine (Nat.length_toDigits_le_iff (by decide) (by decide)).mpr ?_
    rw [SLUG_ATTEMPTS] at hattempt
    omega
  unfold numbered
  split_ifs
  · omega
  · rw [List.length_append, List.length_cons]
    omega

/-- A create finds a handle if and only if one of the names it tries has room and is free. -/
theorem chooseName_isOk_iff (chosen : Option Handle) (deriveFrom : Option Objective) :
    (∃ name, chooseName registry project chosen deriveFrom = .ok name) ↔
      ∃ attempt, 1 ≤ attempt ∧ attempt ≤ SLUG_ATTEMPTS ∧
        Fits registry project (askedName chosen deriveFrom) attempt := by
  rcases @chooseName_cases registry project chosen deriveFrom with
    ⟨hlong, error, herror⟩ | ⟨asked, htext, hchoose⟩
  · rw [herror]
    constructor
    · rintro ⟨name, hname⟩
      cases hname
    · rintro ⟨attempt, hpos, -, hroom, -⟩
      have hlonger := length_numbered_le (askedName chosen deriveFrom) hpos le_rfl
      rw [numbered, if_pos rfl] at hlonger
      omega
  · rw [hchoose, attempts_isOk_iff List.pairwise_lt_range' fun attempt h ↦ (mem_attempts.mp h).1, htext]
    constructor
    · rintro ⟨attempt, htried, hfits⟩
      exact ⟨attempt, (mem_attempts.mp htried).1, (mem_attempts.mp htried).2, hfits⟩
    · rintro ⟨attempt, hpos, hle, hfits⟩
      exact ⟨attempt, mem_attempts.mpr ⟨hpos, hle⟩, hfits⟩

/-- What is found is free, and the name that was asked for where that is free. -/
theorem chooseName_spec {chosen : Option Handle} {deriveFrom : Option Objective} {name : Name}
    (h : chooseName registry project chosen deriveFrom = .ok name) :
    ¬Held registry project name.slug.text ∧ (¬Held registry project (askedName chosen deriveFrom) →
      name.slug.text = askedName chosen deriveFrom) := by
  rcases @chooseName_cases registry project chosen deriveFrom with
    ⟨-, error, herror⟩ | ⟨asked, htext, hchoose⟩
  · rw [herror] at h
    cases h
  · rw [hchoose] at h
    rw [← htext]
    exact ⟨(attempts_ok h).1, attempts_first h⟩

end Free

/-- A create finds a handle that is free, and the one it asks for where that is free, if and only if one of
the names it tries has room and is free. Where fewer units hold a handle than names are tried, a name of at
most 59 characters is enough for that. -/
theorem choose_name_iff (registry : Registry) (project : ProjectId) (chosen : Option Handle)
    (deriveFrom : Option Objective) :
    ((∃ name, chooseName registry project chosen deriveFrom = .ok name ∧ SLUG name.slug.text = true ∧
        ¬Held registry project name.slug.text ∧
        (¬Held registry project (askedName chosen deriveFrom) →
          name.slug.text = askedName chosen deriveFrom)) ↔
      ∃ attempt, 1 ≤ attempt ∧ attempt ≤ SLUG_ATTEMPTS ∧
        Fits registry project (askedName chosen deriveFrom) attempt) ∧
    ((holders registry project).length < SLUG_ATTEMPTS → (askedName chosen deriveFrom).length ≤ 59 →
      ∃ attempt, 1 ≤ attempt ∧ attempt ≤ SLUG_ATTEMPTS ∧
        Fits registry project (askedName chosen deriveFrom) attempt) := by
  constructor
  · rw [← chooseName_isOk_iff]
    constructor
    · rintro ⟨name, hname, -⟩
      exact ⟨name, hname⟩
    · rintro ⟨name, hname⟩
      exact ⟨name, hname, name.slug.shaped, chooseName_spec hname⟩
  · intro hholders hlength
    obtain ⟨attempt, htried, hfree⟩ := exists_free (askedName chosen deriveFrom) hholders
    obtain ⟨hpos, hle⟩ := mem_attempts.mp htried
    exact ⟨attempt, hpos, hle, length_numbered_of_le hlength hle, hfree⟩

/-- A registry of one project and no unit. -/
def bare : Registry where
  projects := Table.set ∅ "shop" ⟨"shop", "shop", ⟨true, ["shop"]⟩, none⟩
  units := ∅
  environments := ∅
  projects_keyed := Registry.sole.projects_keyed
  units_keyed := Registry.sole.units_keyed
  environments_keyed := Registry.sole.environments_keyed
  root_unique := Registry.sole.root_unique
  unit_project := Registry.sole.unit_project
  unit_slug := Registry.sole.unit_slug
  environment_attempt := Registry.sole.environment_attempt

/-- One word of 65 letters. -/
def longWord : Objective := ⟨List.replicate 65 'a', by decide +kernel⟩

/-- A word longer than a handle may be is an objective, and a create that states it finds no handle. -/
theorem longWord_refused : ¬∀ (registry : Registry) (project : ProjectId) (objective : Option Objective),
    (holders registry project).length < SLUG_ATTEMPTS →
      ∃ name, chooseName registry project none objective = .ok name := by
  intro h
  have hnone : (holders bare "shop").length < SLUG_ATTEMPTS := by decide
  obtain ⟨name, hname⟩ := h bare "shop" (some longWord) hnone
  have hrefused : chooseName bare "shop" none (some longWord) =
      .error ⟨"slug".toList, List.replicate 65 'a'⟩ := by
    decide +kernel
  rw [hrefused] at hname
  cases hname

end Nodal.Naming
