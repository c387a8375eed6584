import Mathlib.Data.List.Induction
import Mathlib.Data.List.Perm.Subperm
import Nodal.Foundation.Text

/-!
# The base each unit is measured against

`context/survey.rs`: a survey measures each unit's branch against the first of a list of refs that is a
revision of its home. The list is the unit's own, the copies of the checkout before the home's own refs, but
the ref that answered last comes before it, whichever unit it answered for. So a unit is measured against the
first ref of its own list in every survey exactly when no first ref of another unit is a revision of its home
as well (`measuredAlone_iff`).
-/

set_option autoImplicit false

namespace Nodal.Context.Survey

open Foundation

/-! ### The candidates -/

/-- Which repository's reading of a branch a candidate is. -/
inductive Source
  | checkout
  | home

/-- The two namespaces a branch is looked for in, the remote's reading first. -/
def Source.namespaces : Source → Text × Text
  | checkout => ("refs/nodal/origin/".toList, "refs/nodal/checkout/".toList)
  | home => ("refs/remotes/origin/".toList, "refs/heads/".toList)

/-- The ref that names the project's own default branch. -/
def Source.head (source : Source) : Text := source.namespaces.1 ++ "HEAD".toList

def FALLBACK_BRANCHES : List Text := ["main".toList, "master".toList]

/-- The two refs one branch can be in one source. -/
def pushBranch (branch : Text) (source : Source) : List Text :=
  [source.namespaces.1 ++ branch, source.namespaces.2 ++ branch]

/-- The names one source is asked for. -/
def pass (parent : Option Text) (source : Source) : List Text :=
  parent.toList.flatMap (pushBranch · source) ++
    source.head :: FALLBACK_BRANCHES.flatMap (pushBranch · source)

/-- The names of a unit with such a parent branch, the copies of the checkout first. -/
def fresh (parent : Option Text) : List Text := pass parent .checkout ++ pass parent .home

/-- Names without those seen before. -/
def unseen : List Text → List Text → List Text
  | _, [] => []
  | seen, name :: names => if name ∈ seen then unseen seen names else name :: unseen (name :: seen) names

/-- What a survey remembers: the ref that answered last. -/
structure Bases where
  chosen : Option Text

structure UnitRow (UnitId : Type) where
  id : UnitId
  parentBranch : Option Text

variable {UnitId Path Measured : Type}

/-- The refs to try, best first. -/
def Bases.candidates (bases : Bases) (unit : UnitRow UnitId) : List Text :=
  unseen [] (bases.chosen.toList ++ fresh unit.parentBranch)

/-! ### The search -/

inductive Error
  | git (text : Text)
  | unknownBranch (branch : Text)
  deriving DecidableEq

/-- Where a branch stands, and the ref it was measured against. -/
structure Standing (Measured : Type) where
  base : Text
  measured : Measured
  deriving DecidableEq

/-- What Git answers in a home: whether it has a status, and where the branch stands against a revision. -/
structure Git (Measured : Type) where
  status : Except Error Unit
  standing : Text → Except Error Measured

/-- Whether a ref is a revision the branch can be measured against. -/
def Git.has (git : Git Measured) (name : Text) : Prop := ∃ measured, git.standing name = .ok measured

def search (git : Git Measured) : Option Error → List Text → Except (Option Error) (Standing Measured)
  | last, [] => .error last
  | _, candidate :: rest =>
    match git.standing candidate with
    | .ok measured => .ok ⟨candidate, measured⟩
    | .error error => search git (some error) rest

def Bases.standing (bases : Bases) (git : Git Measured) (unit : UnitRow UnitId) :
    Except Error (Standing Measured) × Bases :=
  match search git none (bases.candidates unit) with
  | .ok standing => (.ok standing, ⟨some standing.base⟩)
  | .error last => (.error (last.getD (.unknownBranch "main".toList)), bases)

/-- Ask a home for its status, and then for the standing. -/
def work (git : Git Measured) (unit : UnitRow UnitId) (bases : Bases) :
    Except Error (Standing Measured) × Bases :=
  match git.status with
  | .error error => (.error error, bases)
  | .ok () => bases.standing git unit

/-! ### What a search answers -/

variable {git : Git Measured} {names seen : List Text} {name chosen : Text} {bases : Bases}
  {unit : UnitRow UnitId} {last : Option Error} {standing : Standing Measured}

/-- A ref is the first of the names that is a revision. -/
inductive First (git : Git Measured) : List Text → Text → Prop
  | here {name : Text} {names : List Text} : git.has name → First git (name :: names) name
  | there {earlier name : Text} {names : List Text} :
      ¬git.has earlier → First git names name → First git (earlier :: names) name

theorem First.has (h : First git names name) : git.has name := by
  induction h with
  | here hhas => exact hhas
  | there _ _ ih => exact ih

/-- Where one of the names is a revision, the first is one of them. -/
theorem First.mem_of_append {rest : List Text} (h : First git (names ++ rest) name) (hmem : chosen ∈ names)
    (hhas : git.has chosen) : name ∈ names := by
  induction names with
  | nil => cases hmem
  | cons next names ih =>
    cases h with
    | here _ => exact List.mem_cons_self
    | there hnot hlater =>
      have hne : chosen ≠ next := by
        rintro rfl
        exact hnot hhas
      exact List.mem_cons_of_mem _ (ih hlater ((List.mem_cons.mp hmem).resolve_left hne))

theorem First.unique {other : Text} (h : First git names name) (hother : First git names other) :
    name = other := by
  induction h with
  | here hhas =>
    cases hother with
    | here _ => rfl
    | there hnot _ => exact absurd hhas hnot
  | there hnot _ ih =>
    cases hother with
    | here hhas => exact absurd hhas hnot
    | there _ hlater => exact ih hlater

theorem first_cons_of_not_has (h : ¬git.has chosen) :
    First git (chosen :: names) name ↔ First git names name := by
  constructor
  · intro hfirst
    cases hfirst with
    | here hhas => exact absurd hhas h
    | there _ hlater => exact hlater
  · exact First.there h

/-- Names that were seen and are no revisions change nothing. -/
theorem first_unseen (h : ∀ earlier ∈ seen, ¬git.has earlier) :
    First git (unseen seen names) name ↔ First git names name := by
  induction names generalizing seen with
  | nil => rfl
  | cons next names ih =>
    rw [unseen]
    by_cases hseen : next ∈ seen
    · rw [if_pos hseen, ih h, first_cons_of_not_has (h next hseen)]
    · rw [if_neg hseen]
      by_cases hhas : git.has next
      · constructor
        · intro hfirst
          rw [hfirst.unique (.here hhas)]
          exact .here hhas
        · intro hfirst
          rw [hfirst.unique (.here hhas)]
          exact .here hhas
      · rw [first_cons_of_not_has hhas, first_cons_of_not_has hhas,
          ih (List.forall_mem_cons.mpr ⟨hhas, h⟩)]

theorem search_ok_iff : search git last names = .ok standing ↔
    First git names standing.base ∧ git.standing standing.base = .ok standing.measured := by
  induction names generalizing last with
  | nil => exact iff_of_false (fun h ↦ nomatch h) fun h ↦ nomatch h.1
  | cons candidate names ih =>
    rw [search]
    cases hcandidate : git.standing candidate with
    | ok measured =>
      have hhas : git.has candidate := ⟨measured, hcandidate⟩
      constructor
      · rintro ⟨⟩
        exact ⟨.here hhas, hcandidate⟩
      · rintro ⟨hfirst, hmeasured⟩
        have hbase := hfirst.unique (.here hhas)
        rw [hbase, hcandidate] at hmeasured
        cases standing
        cases hbase
        cases hmeasured
        rfl
    | error error =>
      have hhas : ¬git.has candidate := by
        rintro ⟨measured, hmeasured⟩
        rw [hcandidate] at hmeasured
        cases hmeasured
      rw [first_cons_of_not_has hhas]
      exact ih

/-- What a unit's standing is with such a memory. -/
def Bases.answer (bases : Bases) (git : Git Measured) (unit : UnitRow UnitId) : Option (Standing Measured) :=
  (bases.standing git unit).1.toOption

theorem answer_eq_some_iff : bases.answer git unit = some standing ↔
    First git (bases.candidates unit) standing.base ∧
      git.standing standing.base = .ok standing.measured := by
  rw [← @search_ok_iff _ git _ none, Bases.answer, Bases.standing]
  cases search git none (bases.candidates unit) with
  | ok found => exact ⟨fun h ↦ congrArg _ (Option.some.inj h), fun h ↦ congrArg _ (Except.ok.inj h)⟩
  | error last => exact iff_of_false (fun h ↦ nomatch h) fun h ↦ nomatch h

theorem first_of_answer (h : First git (bases.candidates unit) name) :
    ∃ measured, bases.answer git unit = some ⟨name, measured⟩ := by
  obtain ⟨measured, hmeasured⟩ := h.has
  exact ⟨measured, answer_eq_some_iff.mpr ⟨h, hmeasured⟩⟩

/-- The memory after a search is the base it found, or what it was. -/
theorem bases_standing : (bases.standing git unit).2 =
    (bases.answer git unit).elim bases fun standing ↦ ⟨some standing.base⟩ := by
  rw [Bases.answer, Bases.standing]
  cases search git none (bases.candidates unit) <;> rfl

theorem first_candidates_none : First git ((Bases.mk none).candidates unit) name ↔
    First git (fresh unit.parentBranch) name :=
  first_unseen (List.forall_mem_nil _)

/-- What is remembered answers where it is a revision, and the unit's own names where it is none. -/
theorem first_candidates_some : First git ((Bases.mk (some chosen)).candidates unit) name ↔
    git.has chosen ∧ name = chosen ∨ ¬git.has chosen ∧ First git (fresh unit.parentBranch) name := by
  have hunseen : First git ((Bases.mk (some chosen)).candidates unit) name ↔
      First git (chosen :: fresh unit.parentBranch) name := first_unseen (List.forall_mem_nil _)
  rw [hunseen]
  by_cases hhas : git.has chosen
  · constructor
    · exact fun hfirst ↦ .inl ⟨hhas, hfirst.unique (.here hhas)⟩
    · rintro (⟨-, rfl⟩ | ⟨hnot, -⟩)
      · exact .here hhas
      · exact absurd hhas hnot
  · rw [first_cons_of_not_has hhas]
    exact ⟨fun hfirst ↦ .inr ⟨hhas, hfirst⟩, fun h ↦ h.elim (fun h ↦ absurd h.1 hhas) And.right⟩

/-- A search finds the first of the unit's own names when what is remembered is one or is no revision. -/
theorem answer_eq (h : ∀ chosen ∈ bases.chosen, git.has chosen → First git (fresh unit.parentBranch) chosen) :
    bases.answer git unit = (Bases.mk none).answer git unit := by
  have hfirst (name : Text) : First git (bases.candidates unit) name ↔
      First git ((Bases.mk none).candidates unit) name := by
    obtain ⟨chosen⟩ := bases
    cases chosen with
    | none => rfl
    | some chosen =>
      rw [first_candidates_some, first_candidates_none]
      by_cases hhas : git.has chosen
      · have hchosen := h chosen rfl hhas
        constructor
        · rintro (⟨-, rfl⟩ | ⟨hnot, -⟩)
          · exact hchosen
          · exact absurd hhas hnot
        · exact fun hname ↦ .inl ⟨hhas, hname.unique hchosen⟩
      · constructor
        · rintro (⟨hthere, -⟩ | ⟨-, hname⟩)
          · exact absurd hthere hhas
          · exact hname
        · exact fun hname ↦ .inr ⟨hhas, hname⟩
  refine Option.ext fun standing ↦ ?_
  rw [answer_eq_some_iff, answer_eq_some_iff, hfirst]

/-- The first of a unit's names is a copy of its parent branch where one is a revision. -/
theorem mem_copies_of_first {parent : Text} (hparent : unit.parentBranch = some parent)
    (hcopy : ∃ copy ∈ pushBranch parent .checkout, git.has copy)
    (h : First git (fresh unit.parentBranch) name) : name ∈ pushBranch parent .checkout := by
  obtain ⟨copy, hmem, hhas⟩ := hcopy
  rw [fresh, pass, hparent, List.append_assoc, Option.toList_some, List.flatMap_singleton] at h
  exact h.mem_of_append hmem hhas

/-! ### The survey -/

/-- A materialisation of a unit. -/
structure Environment (UnitId Path : Type) where
  unitId : UnitId
  absent : Bool
  managed : Bool
  home : Path

/-- What a survey finds on the disk. `ensure` is what goes wrong when a home's copies are brought up to the
checkout, and `git` answers after that. -/
structure Disk (Path Measured : Type) where
  isDir : Path → Bool
  ensure : Path → Option Error
  git : Path → Git Measured

inductive Note
  | homeGone
  | error (error : Error)

structure Snapshot (UnitId Path Measured : Type) where
  unit : UnitRow UnitId
  home : Option (Environment UnitId Path)
  work : Option (Standing Measured)
  notes : List Note

/-- Survey one unit. -/
def one (disk : Disk Path Measured) (unit : UnitRow UnitId) (home : Option (Environment UnitId Path))
    (bases : Bases) : Snapshot UnitId Path Measured × Bases :=
  match home with
  | none => (⟨unit, home, none, []⟩, bases)
  | some environment =>
    if disk.isDir environment.home = false then (⟨unit, home, none, [.homeGone]⟩, bases)
    else
      let notes := if environment.managed then (disk.ensure environment.home).toList.map .error else []
      match work (disk.git environment.home) unit bases with
      | (.ok standing, bases) => (⟨unit, home, some standing, notes⟩, bases)
      | (.error error, bases) => (⟨unit, home, none, notes ++ [.error error]⟩, bases)

variable {disk : Disk Path Measured} {home : Option (Environment UnitId Path)}

/-- The home that a survey asks, where it is on the disk and has a status. -/
def answering (disk : Disk Path Measured) (home : Option (Environment UnitId Path)) : Option (Git Measured) :=
  home.bind fun environment ↦
    if disk.isDir environment.home = false then none
    else (disk.git environment.home).status.toOption.map fun _ ↦ disk.git environment.home

/-- A survey of one unit is a search in the home that answers. -/
theorem one_eq : (one disk unit home bases).1.work = (answering disk home).bind (bases.answer · unit) ∧
    (one disk unit home bases).2 =
      (answering disk home).elim bases fun git ↦ (bases.standing git unit).2 := by
  cases home with
  | none => exact ⟨rfl, rfl⟩
  | some environment =>
    rw [one, answering, Option.bind_some]
    by_cases hdir : disk.isDir environment.home = false
    · rw [if_pos hdir, if_pos hdir]
      exact ⟨rfl, rfl⟩
    · rw [if_neg hdir, if_neg hdir, work]
      cases (disk.git environment.home).status with
      | error error => exact ⟨rfl, rfl⟩
      | ok status =>
        simp only [Except.toOption, Option.map_some, Option.bind_some, Option.elim_some, Bases.answer]
        generalize bases.standing (disk.git environment.home) unit = answered
        obtain ⟨outcome, after⟩ := answered
        cases outcome <;> exact ⟨rfl, rfl⟩

/-! ### The homes of a project -/

variable [DecidableEq UnitId]

/-- A later materialisation of the same unit takes the place of the one held. -/
def hold : List (Environment UnitId Path) → Environment UnitId Path → List (Environment UnitId Path)
  | [], environment => [environment]
  | held :: live, environment =>
    if held.unitId = environment.unitId then environment :: live else held :: hold live environment

/-- The newest materialisation of each unit that is not absent. -/
def liveHomes (environments : List (Environment UnitId Path)) : List (Environment UnitId Path) :=
  environments.foldl (fun live environment ↦ if environment.absent then live else hold live environment) []

/-- The home a unit is surveyed in. -/
def homeOf (environments : List (Environment UnitId Path)) (unit : UnitRow UnitId) :
    Option (Environment UnitId Path) :=
  (liveHomes environments).find? (·.unitId = unit.id)

def surveyFrom (disk : Disk Path Measured) (environments : List (Environment UnitId Path)) :
    Bases → List (UnitRow UnitId) → List (Snapshot UnitId Path Measured)
  | _, [] => []
  | bases, unit :: units =>
    let surveyed := one disk unit (homeOf environments unit) bases
    surveyed.1 :: surveyFrom disk environments surveyed.2 units

/-- Survey every unit of a project, in the order the registry lists them. -/
def project (disk : Disk Path Measured) (units : List (UnitRow UnitId))
    (environments : List (Environment UnitId Path)) : List (Snapshot UnitId Path Measured) :=
  surveyFrom disk environments ⟨none⟩ units

variable {units order : List (UnitRow UnitId)} {environments later : List (Environment UnitId Path)}

theorem find?_hold (live : List (Environment UnitId Path)) (environment : Environment UnitId Path) :
    (hold live environment).find? (·.unitId = unit.id) =
      if environment.unitId = unit.id then some environment else live.find? (·.unitId = unit.id) := by
  induction live with
  | nil => rw [hold, List.find?_singleton]; simp
  | cons held live ih =>
    rw [hold]
    by_cases hsame : held.unitId = environment.unitId
    · rw [if_pos hsame, List.find?_cons, List.find?_cons, hsame]
      by_cases hunit : environment.unitId = unit.id <;> simp [hunit]
    · rw [if_neg hsame, List.find?_cons, List.find?_cons, ih]
      by_cases hheld : held.unitId = unit.id
      · have hunit : environment.unitId ≠ unit.id := fun hunit ↦ hsame (hheld.trans hunit.symm)
        simp [hheld, hunit]
      · simp [hheld]

/-- A unit's home is the last of its materialisations that is not absent. -/
theorem homeOf_eq : homeOf environments unit =
    (environments.filter fun environment ↦ environment.unitId = unit.id && !environment.absent).getLast? := by
  induction environments using List.reverseRecOn with
  | nil => rfl
  | append_singleton environments environment ih =>
    rw [homeOf, liveHomes, List.foldl_append, ← liveHomes, List.foldl_cons, List.foldl_nil,
      List.filter_append]
    rw [homeOf] at ih
    cases habsent : environment.absent with
    | true => simp [habsent, ih]
    | false =>
      rw [if_neg (by simp), find?_hold]
      by_cases hunit : environment.unitId = unit.id
      · simp [hunit, habsent]
      · simp [hunit, habsent, ih]

/-- Materialisations of other units do not change a unit's home. -/
theorem homeOf_congr (h : later.filter (·.unitId = unit.id) = environments.filter (·.unitId = unit.id)) :
    homeOf later unit = homeOf environments unit := by
  have hsplit (rows : List (Environment UnitId Path)) :
      (rows.filter fun environment ↦ environment.unitId = unit.id && !environment.absent) =
        (rows.filter (·.unitId = unit.id)).filter (!·.absent) := by
    rw [List.filter_filter]
    exact List.filter_congr fun environment _ ↦ Bool.and_comm _ _
  rw [homeOf_eq, homeOf_eq, hsplit, hsplit, h]

/-! ### Units measured alone -/

/-- A unit's standing where no other unit is surveyed before it. -/
def alone (disk : Disk Path Measured) (environments : List (Environment UnitId Path))
    (unit : UnitRow UnitId) : Option (Standing Measured) :=
  (one disk unit (homeOf environments unit) ⟨none⟩).1.work

/-- A snapshot has the standing of its unit alone, and that is against a copy of the unit's parent branch
where a copy is a revision of the home. -/
structure Own (disk : Disk Path Measured) (environments : List (Environment UnitId Path))
    (unit : UnitRow UnitId) (snapshot : Snapshot UnitId Path Measured) : Prop where
  alone : snapshot.work = alone disk environments unit
  parent : ∀ environment ∈ homeOf environments unit, ∀ parent ∈ unit.parentBranch,
    (∃ copy ∈ pushBranch parent .checkout, (disk.git environment.home).has copy) →
      ∀ standing ∈ snapshot.work, standing.base ∈ pushBranch parent .checkout

/-- In every order of the units, and with any of them and of their materialisations left out, each unit is
measured against its own base. -/
def MeasuredAlone (disk : Disk Path Measured) (units : List (UnitRow UnitId))
    (environments : List (Environment UnitId Path)) : Prop :=
  ∀ (order : List (UnitRow UnitId)) (later : List (Environment UnitId Path)), order.Subperm units →
    (∀ unit ∈ order, later.filter (·.unitId = unit.id) = environments.filter (·.unitId = unit.id)) →
      List.Forall₂ (Own disk environments) order (project disk order later)

/-- A ref that is the first of one unit's names in its home is the first of another's in that unit's home, or
no revision of it. -/
def OwnFirst (disk : Disk Path Measured) (units : List (UnitRow UnitId))
    (environments : List (Environment UnitId Path)) : Prop :=
  ∀ unit ∈ units, ∀ other ∈ units, ∀ git ∈ answering disk (homeOf environments unit),
    ∀ there ∈ answering disk (homeOf environments other), ∀ name,
      First there (fresh other.parentBranch) name → git.has name → First git (fresh unit.parentBranch) name

/-- What is remembered is the first of some unit's own names. -/
def Remembered (disk : Disk Path Measured) (units : List (UnitRow UnitId))
    (environments : List (Environment UnitId Path)) (bases : Bases) : Prop :=
  ∀ chosen ∈ bases.chosen, ∃ unit ∈ units, ∃ git ∈ answering disk (homeOf environments unit),
    First git (fresh unit.parentBranch) chosen

theorem alone_eq : alone disk environments unit =
    (answering disk (homeOf environments unit)).bind ((Bases.mk none).answer · unit) :=
  one_eq.1

theorem work_eq_alone (h : OwnFirst disk units environments) (hunit : unit ∈ units)
    (hbases : Remembered disk units environments bases) :
    (one disk unit (homeOf environments unit) bases).1.work = alone disk environments unit := by
  rw [alone_eq, one_eq.1]
  refine Option.bind_congr fun git hgit ↦ answer_eq fun chosen hchosen hhas ↦ ?_
  obtain ⟨other, hother, there, hthere, hfirst⟩ := hbases chosen hchosen
  exact h unit hunit other hother git hgit there hthere chosen hfirst hhas

/-- Surveying a unit leaves in the memory the first of its own names, or what was there. -/
theorem Remembered.one (h : OwnFirst disk units environments) (hunit : unit ∈ units)
    (hbases : Remembered disk units environments bases) :
    Remembered disk units environments (one disk unit (homeOf environments unit) bases).2 := by
  have hwork := work_eq_alone h hunit hbases
  rw [alone_eq, one_eq.1] at hwork
  rw [one_eq.2]
  cases hgit : answering disk (homeOf environments unit) with
  | none => exact hbases
  | some git =>
    rw [hgit, Option.bind_some, Option.bind_some] at hwork
    rw [Option.elim_some, bases_standing, hwork]
    cases hanswer : (Bases.mk none).answer git unit with
    | none => exact hbases
    | some standing =>
      rintro _ ⟨⟩
      exact ⟨unit, hunit, git, hgit, first_candidates_none.mp (answer_eq_some_iff.mp hanswer).1⟩

theorem own_of_alone {snapshot : Snapshot UnitId Path Measured}
    (h : snapshot.work = alone disk environments unit) : Own disk environments unit snapshot := by
  refine ⟨h, fun environment henvironment parent hparent hcopy standing hstanding ↦ ?_⟩
  rw [h, alone_eq, Option.mem_def, Option.bind_eq_some_iff] at hstanding
  obtain ⟨git, hgit, hanswer⟩ := hstanding
  have hfirst := first_candidates_none.mp (answer_eq_some_iff.mp hanswer).1
  refine mem_copies_of_first hparent ?_ hfirst
  rw [answering, henvironment, Option.bind_some] at hgit
  split_ifs at hgit with hdir
  obtain ⟨-, -, rfl⟩ := Option.map_eq_some_iff.mp hgit
  exact hcopy

theorem forall₂_surveyFrom (h : OwnFirst disk units environments) (hunits : ∀ unit ∈ order, unit ∈ units)
    (hhomes : ∀ unit ∈ order, homeOf later unit = homeOf environments unit)
    (hbases : Remembered disk units environments bases) :
    List.Forall₂ (Own disk environments) order (surveyFrom disk later bases order) := by
  induction order generalizing bases with
  | nil => exact .nil
  | cons unit order ih =>
    obtain ⟨hunit, horder⟩ := List.forall_mem_cons.mp hunits
    obtain ⟨hhome, hlater⟩ := List.forall_mem_cons.mp hhomes
    rw [surveyFrom, hhome]
    exact .cons (own_of_alone (work_eq_alone h hunit hbases)) (ih horder hlater (hbases.one h hunit))

/-- Each unit is measured against its own base exactly when no unit's own base is a revision of another's home
that comes before that one's own. -/
theorem measuredAlone_iff (disk : Disk Path Measured) (units : List (UnitRow UnitId))
    (environments : List (Environment UnitId Path)) :
    MeasuredAlone disk units environments ↔ OwnFirst disk units environments := by
  constructor
  · intro h unit hunit other hother git hgit there hthere name hfirst hhas
    by_cases hsame : other = unit
    · rw [hsame] at hthere hfirst
      rwa [Option.mem_unique hgit hthere]
    -- Surveyed after the other unit, this one is measured against the other's base.
    have horder : [other, unit].Subperm units :=
      List.subperm_of_subset (by simpa using hsame) (by simp [hunit, hother])
    have hpair := h [other, unit] environments horder fun _ _ ↦ rfl
    rw [project, surveyFrom, surveyFrom] at hpair
    obtain ⟨measured, hanswer⟩ := first_of_answer (first_candidates_none.mpr hfirst)
    have hbases : (one disk other (homeOf environments other) ⟨none⟩).2 = ⟨some name⟩ := by
      rw [one_eq.2, Option.mem_def.mp hthere, Option.elim_some, bases_standing, hanswer]
      rfl
    rw [hbases] at hpair
    have hwork := (List.forall₂_cons.mp (List.forall₂_cons.mp hpair).2).1.alone
    rw [one_eq.1, alone_eq, Option.mem_def.mp hgit, Option.bind_some, Option.bind_some] at hwork
    obtain ⟨found, hfound⟩ := first_of_answer (first_candidates_some.mpr (.inl ⟨hhas, rfl⟩))
    rw [hfound] at hwork
    exact first_candidates_none.mp (answer_eq_some_iff.mp hwork.symm).1
  · intro h order later horder hrows
    refine forall₂_surveyFrom h (fun unit hunit ↦ horder.subset hunit)
      (fun unit hunit ↦ homeOf_congr (hrows unit hunit)) ?_
    exact fun _ hchosen ↦ nomatch hchosen

/-- What Git answers in a home with the checkout's own default branch and one more. -/
def twoBranches : Git ℕ where
  status := .ok ()
  standing name :=
    if name = "refs/nodal/origin/HEAD".toList then .ok 0
    else if name = "refs/nodal/origin/release".toList then .ok 1
    else .error (.git name)

def twoHomes : Disk ℕ ℕ := ⟨fun _ ↦ true, fun _ ↦ none, fun _ ↦ twoBranches⟩

def noParent : UnitRow ℕ := ⟨0, none⟩

def onRelease : UnitRow ℕ := ⟨1, some "release".toList⟩

/-- A unit whose parent branch is in the copy of the checkout is measured against the default branch, when a
unit with no parent branch is surveyed before it. -/
theorem release_measured_against_head :
    (project twoHomes [noParent, onRelease] [⟨0, false, true, 0⟩, ⟨1, false, true, 1⟩]).map (·.work) =
        [some ⟨"refs/nodal/origin/HEAD".toList, 0⟩, some ⟨"refs/nodal/origin/HEAD".toList, 0⟩] ∧
      alone twoHomes [⟨0, false, true, 0⟩, ⟨1, false, true, 1⟩] onRelease =
        some ⟨"refs/nodal/origin/release".toList, 1⟩ ∧
      ¬MeasuredAlone twoHomes [noParent, onRelease] [⟨0, false, true, 0⟩, ⟨1, false, true, 1⟩] := by
  have hwork : (project twoHomes [noParent, onRelease] [⟨0, false, true, 0⟩, ⟨1, false, true, 1⟩]).map
      (·.work) = [some ⟨"refs/nodal/origin/HEAD".toList, 0⟩, some ⟨"refs/nodal/origin/HEAD".toList, 0⟩] := by
    decide
  have halone : alone twoHomes [⟨0, false, true, 0⟩, ⟨1, false, true, 1⟩] onRelease =
      some ⟨"refs/nodal/origin/release".toList, 1⟩ := by
    decide
  refine ⟨hwork, halone, fun h ↦ ?_⟩
  have hpair := h _ _ (List.Perm.refl _).subperm fun _ _ ↦ rfl
  have hsecond := (List.forall₂_cons.mp (List.forall₂_cons.mp hpair).2).1.alone
  rw [halone] at hsecond
  revert hsecond
  decide

end Nodal.Context.Survey
