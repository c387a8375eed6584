import Mathlib.Data.List.Basic
import Mathlib.Data.List.Infix
import Mathlib.Tactic.Common

/-!
# Directories, symbolic links, and the paths that lead through them

A path is read from a directory, part by part: a name goes down, or through the link of that name, and
`..` goes up from where the reading stands, which after a link is not where the path says. What stands
below a directory is in the way only once it is there, so directories made later never turn a path that
leads somewhere already (`Leads.grows`), and a path whose last names are not there yet leads, once they
are, below the place its front leads to (`leads_plain`).
-/

set_option autoImplicit false

namespace Nodal.Foundation.Places

/-- A place: the names on the way to it from the root, the last one first. -/
abbrev Place := List String

/-- Where a path begins: at the root, in the directory it is read in, or there with a `.` written. -/
inductive Start
  | root
  | here
  | dot
  deriving DecidableEq

inductive Part
  | up
  | name (name : String)
  deriving DecidableEq

/-- A path as it is written, the last part first. -/
structure Route where
  start : Start
  parts : List Part
  deriving DecidableEq

/-- What is at a place. -/
inductive Node
  | directory
  | file
  | link (target : Route)
  deriving DecidableEq

/-- Why a path leads nowhere. -/
inductive Fault
  | notFound
  | alreadyExists
  | notDirectory
  | loop
  deriving DecidableEq

/-- A file system as one process sees it: what is at each place, how many links one path may lead
through, and the directory the process stands in. -/
structure Files where
  node : Place → Option Node
  root : node [] = some .directory
  rooted : ∀ name place, node (name :: place) ≠ none → node place = some .directory
  limit : ℕ
  cwd : Place
  stands : node cwd = some .directory

/-- The path of a place. -/
def route (place : Place) : Route := ⟨.root, place.map .name⟩

namespace Files

variable (fs : Files)

/-- The directory a path begins in, when it is read in some directory. -/
def base (start : Start) (place : Place) : Place :=
  if start = .root then [] else place

/-- The parts of a path in order, with the way a link is followed: where it leads, and what of the path
is left. -/
def walkWith (links : ℕ) (follow : Place → List Part → Except Fault (ℕ × Place)) :
    Place → List Part → Except Fault (ℕ × Place)
  | place, [] => .ok (links, place)
  | place, part :: rest =>
    match fs.node place with
    | some .directory =>
      match part with
      | .up => walkWith links follow place.tail rest
      | .name name =>
        match fs.node (name :: place) with
        | none => .error .notFound
        | some (.link target) => follow (base target.start place) (target.parts.reverse ++ rest)
        | some _ => walkWith links follow (name :: place) rest
    | _ => .error .notDirectory

/-- Where the parts of a path lead from a place, with the links that may still be followed there. -/
def walk : ℕ → Place → List Part → Except Fault (ℕ × Place)
  | 0 => fs.walkWith 0 fun _ _ ↦ .error .loop
  | links + 1 => fs.walkWith (links + 1) (walk links)

/-- Where a path leads. -/
def lead (path : Route) : Except Fault (ℕ × Place) :=
  fs.walk fs.limit (base path.start fs.cwd) path.parts.reverse

/-- The real place of a path that is there. The empty path is none. -/
def canonicalize (path : Route) : Option Place :=
  if path = ⟨.here, []⟩ then none else (fs.lead path).toOption.map Prod.snd

def isDir (path : Route) : Bool :=
  (fs.canonicalize path).any fun place ↦ fs.node place = some .directory

def isFile (path : Route) : Bool :=
  (fs.canonicalize path).any fun place ↦ fs.node place = some .file

/-! ### What a path leads to -/

/-- The parts of a path lead from one place to another, through so many links that so many are left. -/
inductive Leads (fs : Files) : ℕ → Place → List Part → ℕ → Place → Prop
  | here {links : ℕ} {place : Place} : Leads fs links place [] links place
  | up {links left : ℕ} {place last : Place} {rest : List Part}
      (h : fs.node place = some .directory) (hrest : Leads fs links place.tail rest left last) :
      Leads fs links place (.up :: rest) left last
  | down {links left : ℕ} {place last : Place} {name : String} {rest : List Part} {node : Node}
      (h : fs.node place = some .directory) (hnode : fs.node (name :: place) = some node)
      (hlink : ∀ target, node ≠ .link target)
      (hrest : Leads fs links (name :: place) rest left last) :
      Leads fs links place (.name name :: rest) left last
  | follow {links left : ℕ} {place last : Place} {name : String} {rest : List Part} {target : Route}
      (h : fs.node place = some .directory) (hlink : fs.node (name :: place) = some (.link target))
      (hrest : Leads fs links (base target.start place) (target.parts.reverse ++ rest) left last) :
      Leads fs (links + 1) place (.name name :: rest) left last

variable {fs} {links left : ℕ} {place last : Place} {name : String} {parts rest front : List Part}

theorem walk_nil : fs.walk links place [] = .ok (links, place) := by
  cases links <;> rfl

theorem walk_up (h : fs.node place = some .directory) :
    fs.walk links place (.up :: rest) = fs.walk links place.tail rest := by
  cases links <;> simp [walk, walkWith, h]

theorem walk_name (h : fs.node place = some .directory) :
    fs.walk links place (.name name :: rest) =
      match fs.node (name :: place) with
      | none => .error .notFound
      | some (.link target) =>
        match links with
        | 0 => .error .loop
        | left + 1 => fs.walk left (base target.start place) (target.parts.reverse ++ rest)
      | some _ => fs.walk links (name :: place) rest := by
  cases links <;> simp only [walk, walkWith, h]

theorem walk_not_directory {part : Part} (h : fs.node place ≠ some .directory) :
    fs.walk links place (part :: rest) = .error .notDirectory := by
  cases links <;> simp [walk, walkWith.eq_def]

theorem leads_of_walk (h : fs.walk links place parts = .ok (left, last)) :
    Leads fs links place parts left last := by
  induction links generalizing place parts with
  | zero =>
    induction parts generalizing place with
    | nil =>
      rw [walk_nil] at h
      cases h
      exact .here
    | cons part rest ih =>
      by_cases hplace : fs.node place = some .directory
      · cases part with
        | up => exact .up hplace (ih (by rwa [walk_up hplace] at h))
        | name name =>
          rw [walk_name hplace] at h
          split at h
          · cases h
          · cases h
          · next node hlink hnode => exact .down hplace hnode hlink (ih h)
      · rw [walk_not_directory hplace] at h
        cases h
  | succ links follow =>
    induction parts generalizing place with
    | nil =>
      rw [walk_nil] at h
      cases h
      exact .here
    | cons part rest ih =>
      by_cases hplace : fs.node place = some .directory
      · cases part with
        | up => exact .up hplace (ih (by rwa [walk_up hplace] at h))
        | name name =>
          rw [walk_name hplace] at h
          split at h
          · cases h
          · next target hlink => exact .follow hplace hlink (follow h)
          · next node hlink hnode => exact .down hplace hnode hlink (ih h)
      · rw [walk_not_directory hplace] at h
        cases h

theorem walk_eq_ok_iff :
    fs.walk links place parts = .ok (left, last) ↔ Leads fs links place parts left last := by
  refine ⟨leads_of_walk, fun h ↦ ?_⟩
  induction h with
  | here => exact walk_nil
  | up h _ ih => rw [walk_up h, ih]
  | @down _ _ _ _ _ _ node h hnode hlink _ ih =>
    rw [walk_name h, hnode]
    cases node with
    | link target => exact absurd rfl (hlink target)
    | directory => exact ih
    | file => exact ih
  | follow h hlink _ ih => rw [walk_name h, hlink, ← ih]

theorem Leads.append {mid : ℕ} {between : Place} (h : Leads fs links place front mid between)
    (hrest : Leads fs mid between rest left last) : Leads fs links place (front ++ rest) left last := by
  induction h with
  | here => exact hrest
  | up h _ ih => exact .up h (ih hrest)
  | down h hnode hlink _ ih => exact .down h hnode hlink (ih hrest)
  | follow h hlink _ ih => exact .follow h hlink (by simpa using ih hrest)

/-- More links may be left over. -/
theorem Leads.more (h : Leads fs links place parts left last) (more : ℕ) :
    Leads fs (links + more) place parts (left + more) last := by
  induction h with
  | here => exact .here
  | up h _ ih => exact .up h ih
  | down h hnode hlink _ ih => exact .down h hnode hlink ih
  | follow h hlink _ ih =>
    rw [Nat.succ_add]
    exact .follow h hlink ih

theorem Leads.left_le (h : Leads fs links place parts left last) : left ≤ links := by
  induction h with
  | here => exact Nat.le_refl _
  | up _ _ ih => exact ih
  | down _ _ _ _ ih => exact ih
  | follow _ _ _ ih => exact Nat.le_succ_of_le ih

/-- A path leads where its end leads from the place its front leads to. -/
theorem Leads.split (h : Leads fs links place (front ++ rest) left last) :
    ∃ mid between, Leads fs links place front mid between ∧ Leads fs mid between rest left last := by
  generalize hparts : front ++ rest = parts at h
  induction h generalizing front with
  | here =>
    obtain ⟨rfl, rfl⟩ := List.append_eq_nil_iff.mp hparts
    exact ⟨_, _, .here, .here⟩
  | up h hrest ih =>
    cases front with
    | nil => exact ⟨_, _, .here, by rw [List.nil_append] at hparts; exact hparts ▸ .up h hrest⟩
    | cons part front =>
      obtain ⟨rfl, hfront⟩ := List.cons.inj hparts
      obtain ⟨mid, between, hmid, hend⟩ := ih hfront
      exact ⟨mid, between, .up h hmid, hend⟩
  | down h hnode hlink hrest ih =>
    cases front with
    | nil =>
      exact ⟨_, _, .here, by rw [List.nil_append] at hparts; exact hparts ▸ .down h hnode hlink hrest⟩
    | cons part front =>
      obtain ⟨rfl, hfront⟩ := List.cons.inj hparts
      obtain ⟨mid, between, hmid, hend⟩ := ih hfront
      exact ⟨mid, between, .down h hnode hlink hmid, hend⟩
  | @follow _ _ _ _ _ _ target h hlink hrest ih =>
    cases front with
    | nil =>
      exact ⟨_, _, .here, by rw [List.nil_append] at hparts; exact hparts ▸ .follow h hlink hrest⟩
    | cons part front =>
      obtain ⟨rfl, hfront⟩ := List.cons.inj hparts
      obtain ⟨mid, between, hmid, hend⟩ :=
        @ih (target.parts.reverse ++ front) (by rw [List.append_assoc]; exact congrArg _ hfront)
      exact ⟨mid, between, .follow h hlink hmid, hend⟩

/-! ### Directories made later -/

/-- One file system holds all that another does, and directories besides. -/
structure Grows (fs fs' : Files) : Prop where
  node : ∀ place, fs'.node place = fs.node place ∨
    fs.node place = none ∧ fs'.node place = some .directory
  limit : fs'.limit = fs.limit
  cwd : fs'.cwd = fs.cwd

variable {fs' fs'' : Files} {node : Node}

theorem Grows.refl (fs : Files) : Grows fs fs :=
  ⟨fun _ ↦ Or.inl rfl, rfl, rfl⟩

theorem Grows.trans (h : Grows fs fs') (h' : Grows fs' fs'') : Grows fs fs'' := by
  refine ⟨fun place ↦ ?_, h'.limit.trans h.limit, h'.cwd.trans h.cwd⟩
  rcases h.node place with hsame | ⟨hnone, hmade⟩
  · rw [← hsame]
    exact h'.node place
  · rcases h'.node place with hsame' | ⟨hnone', _⟩
    · exact Or.inr ⟨hnone, hsame'.trans hmade⟩
    · rw [hmade] at hnone'
      cases hnone'

theorem Grows.some (h : Grows fs fs') (hnode : fs.node place = some node) :
    fs'.node place = some node := by
  rcases h.node place with hsame | ⟨hnone, _⟩
  · exact hsame.trans hnode
  · rw [hnode] at hnone
    cases hnone

/-- What a path leads to it leads to after more directories were made. -/
theorem Leads.grows (h : Leads fs links place parts left last) (hgrows : Grows fs fs') :
    Leads fs' links place parts left last := by
  induction h with
  | here => exact .here
  | up h _ ih => exact .up (hgrows.some h) ih
  | down h hnode hlink _ ih => exact .down (hgrows.some h) (hgrows.some hnode) hlink ih
  | follow h hlink _ ih => exact .follow (hgrows.some h) (hgrows.some hlink) ih

/-- Nothing but directories is at a place or below it. -/
def Plain (fs : Files) (place : Place) : Prop :=
  ∀ below, fs.node (below ++ place) = none ∨ fs.node (below ++ place) = some .directory

/-- Nothing is below a place where nothing is. -/
theorem node_below (h : fs.node place = none) (below : Place) : fs.node (below ++ place) = none := by
  induction below with
  | nil => exact h
  | cons name below ih =>
    by_contra hsome
    have hdirectory := fs.rooted name (below ++ place) hsome
    rw [ih] at hdirectory
    cases hdirectory

/-- What is above a directory is one. -/
theorem node_above {above : Place} (h : fs.node place = some .directory) (habove : above <:+ place) :
    fs.node above = some .directory := by
  induction place with
  | nil =>
    rw [List.suffix_nil.mp habove]
    exact h
  | cons name place ih =>
    rcases List.suffix_cons_iff.mp habove with rfl | hsuffix
    · exact h
    · exact ih (fs.rooted name place (by rw [h]; exact Option.some_ne_none _)) hsuffix

theorem Grows.plain (h : Grows fs fs') (hnone : fs.node place = none) : Plain fs' place := by
  intro below
  rcases h.node (below ++ place) with hsame | ⟨_, hmade⟩
  · exact Or.inl (hsame.trans (node_below hnone below))
  · exact Or.inr hmade

/-- Names lead straight down where nothing but directories is. -/
theorem leads_plain {names : List String} (hplain : Plain fs (name :: place))
    (h : Leads fs links place ((name :: names).map .name) left last) :
    left = links ∧ last = names.reverse ++ name :: place := by
  induction names generalizing place name with
  | nil =>
    cases h with
    | down _ _ _ hrest =>
      cases hrest
      exact ⟨rfl, rfl⟩
    | follow _ hlink _ =>
      rcases hplain [] with hnone | hdirectory
      · cases hnone.symm.trans hlink
      · cases hdirectory.symm.trans hlink
  | cons next names ih =>
    cases h with
    | down _ _ _ hrest =>
      have hbelow : Plain fs (next :: name :: place) := fun below ↦ by
        simpa using hplain (below ++ [next])
      obtain ⟨hleft, hlast⟩ := ih hbelow hrest
      exact ⟨hleft, by rw [hlast, List.reverse_cons, List.append_assoc, List.singleton_append]⟩
    | follow _ hlink _ =>
      rcases hplain [] with hnone | hdirectory
      · cases hnone.symm.trans hlink
      · cases hdirectory.symm.trans hlink

/-- Names lead nowhere where the first of them is not there. -/
theorem not_leads_missing {names : List String} (hfirst : names.head? = some name)
    (hnone : fs.node (name :: place) = none) : ¬ Leads fs links place (names.map .name) left last := by
  intro h
  cases names with
  | nil => cases hfirst
  | cons first names =>
    obtain rfl := Option.some.inj hfirst
    cases h with
    | down _ hnode _ _ => cases hnone.symm.trans hnode
    | follow _ hlink _ => cases hnone.symm.trans hlink

/-! ### Making directories -/

/-- A file system with one more directory, at a place in a directory where nothing is. -/
def insert (fs : Files) (name : String) (place : Place) (h : fs.node place = some .directory) :
    Files where
  node at' := if at' = name :: place then some .directory else fs.node at'
  root := by simpa using fs.root
  rooted below at' hnode := by
    by_cases hat : at' = name :: place
    · exact if_pos hat
    · rw [if_neg hat]
      by_cases hbelow : below :: at' = name :: place
      · obtain ⟨-, rfl⟩ := List.cons.inj hbelow
        exact h
      · rw [if_neg hbelow] at hnode
        exact fs.rooted below at' hnode
  limit := fs.limit
  cwd := fs.cwd
  stands := by
    split
    · rfl
    · exact fs.stands

/-- Make one directory, in a directory that is there. -/
def mkdir (fs : Files) (path : Route) : Except Fault Files :=
  match path.parts with
  | [] => .error (if path.start = .here then .notFound else .alreadyExists)
  | part :: parent =>
    match fs.lead ⟨path.start, parent⟩ with
    | .error fault => .error fault
    | .ok (_, place) =>
      if h : fs.node place = some .directory then
        match part with
        | .up => .error .alreadyExists
        | .name name =>
          if fs.node (name :: place) = none then .ok (fs.insert name place h) else .error .alreadyExists
      else .error .notDirectory

/-- Make a directory and each one above it that is not there: make it; where what is above is missing,
make that first; and take a directory that stands there for one that was made. -/
def createDirAll (fs : Files) (start : Start) : List Part → Except Fault Files
  | [] => if fs.isDir ⟨start, []⟩ ∨ start = .here then .ok fs else .error .alreadyExists
  | part :: parent =>
    match fs.mkdir ⟨start, part :: parent⟩ with
    | .ok made => .ok made
    | .error .notFound =>
      (createDirAll fs start parent).bind fun above ↦
        match above.mkdir ⟨start, part :: parent⟩ with
        | .ok made => .ok made
        | .error fault => if above.isDir ⟨start, part :: parent⟩ then .ok above else .error fault
    | .error fault => if fs.isDir ⟨start, part :: parent⟩ then .ok fs else .error fault

variable {start : Start} {path : Route} {part : Part} {fault : Fault}

theorem grows_insert (h : fs.node place = some .directory) (hnone : fs.node (name :: place) = none) :
    Grows fs (fs.insert name place h) := by
  refine ⟨fun at' ↦ ?_, rfl, rfl⟩
  by_cases hat : at' = name :: place
  · exact Or.inr ⟨hat ▸ hnone, if_pos hat⟩
  · exact Or.inl (if_neg hat)

theorem lead_eq_ok_iff : fs.lead path = .ok (left, last) ↔
    Leads fs fs.limit (base path.start fs.cwd) path.parts.reverse left last :=
  walk_eq_ok_iff

theorem lead_grows (h : fs.lead path = .ok (left, last)) (hgrows : Grows fs fs') :
    fs'.lead path = .ok (left, last) := by
  rw [lead_eq_ok_iff, hgrows.limit, hgrows.cwd]
  exact (lead_eq_ok_iff.mp h).grows hgrows

theorem lead_split (h : fs.lead ⟨start, rest ++ parts⟩ = .ok (left, last)) :
    ∃ mid between, fs.lead ⟨start, parts⟩ = .ok (mid, between) ∧
      Leads fs mid between rest.reverse left last := by
  have hleads := lead_eq_ok_iff.mp h
  rw [List.reverse_append] at hleads
  obtain ⟨mid, between, hfront, hend⟩ := hleads.split
  exact ⟨mid, between, lead_eq_ok_iff.mpr hfront, hend⟩

/-- The path of a directory leads there. -/
theorem lead_route (h : fs.node place = some .directory) :
    fs.lead (route place) = .ok (fs.limit, place) := by
  induction place with
  | nil => exact walk_nil
  | cons name place ih =>
    have hplace := fs.rooted name place (by rw [h]; exact Option.some_ne_none _)
    rw [lead_eq_ok_iff, route, List.map_cons, List.reverse_cons]
    exact (lead_eq_ok_iff.mp (ih hplace)).append (.down hplace h (fun _ hlink ↦ by cases hlink) .here)

theorem canonicalize_eq_some_iff : fs.canonicalize path = some last ↔
    path ≠ ⟨.here, []⟩ ∧ ∃ left, fs.lead path = .ok (left, last) := by
  unfold canonicalize
  split_ifs with hempty
  · simp [hempty]
  · cases hlead : fs.lead path with
    | error fault => simp [Except.toOption]
    | ok r => simp [Except.toOption, hempty, Prod.ext_iff]

theorem isDir_iff : fs.isDir path = true ↔
    ∃ place, fs.canonicalize path = some place ∧ fs.node place = some .directory := by
  simp [isDir, Option.any_eq_true]

/-- A directory is made where its parents lead, with nothing there before. -/
theorem mkdir_spec (h : fs.mkdir path = .ok fs') : ∃ name parent left place,
    path.parts = .name name :: parent ∧ fs.lead ⟨path.start, parent⟩ = .ok (left, place) ∧
      fs.node (name :: place) = none ∧ Grows fs fs' ∧
      fs'.lead path = .ok (left, name :: place) ∧ fs'.node (name :: place) = some .directory := by
  obtain ⟨start, parts⟩ := path
  unfold mkdir at h
  cases parts with
  | nil => cases h
  | cons part parent =>
    dsimp only at h
    cases hlead : fs.lead ⟨start, parent⟩ with
    | error fault =>
      rw [hlead] at h
      cases h
    | ok r =>
      obtain ⟨left, place⟩ := r
      rw [hlead] at h
      dsimp only at h
      split_ifs at h with hplace
      cases part with
      | up => cases h
      | name name =>
        dsimp only at h
        split_ifs at h with hnone
        cases h
        have hgrows := grows_insert hplace hnone
        have hmade : (fs.insert name place hplace).node (name :: place) = some .directory :=
          if_pos rfl
        refine ⟨name, parent, left, place, rfl, hlead, hnone, hgrows, ?_, hmade⟩
        rw [lead_eq_ok_iff, List.reverse_cons]
        exact (lead_eq_ok_iff.mp (lead_grows hlead hgrows)).append
          (.down (hgrows.some hplace) hmade (fun target hlink ↦ by cases hlink) .here)

theorem lead_of_isDir (h : fs.isDir path = true) :
    ∃ left place, fs.lead path = .ok (left, place) ∧ fs.node place = some .directory := by
  obtain ⟨place, hcanonical, hplace⟩ := isDir_iff.mp h
  obtain ⟨_, left, hlead⟩ := canonicalize_eq_some_iff.mp hcanonical
  exact ⟨left, place, hlead, hplace⟩

theorem mkdir_leads (h : fs.mkdir path = .ok fs') : Grows fs fs' ∧
    ∃ left place, fs'.lead path = .ok (left, place) ∧ fs'.node place = some .directory := by
  obtain ⟨name, _, left, place, _, _, _, hgrows, hlead, hplace⟩ := mkdir_spec h
  exact ⟨hgrows, left, name :: place, hlead, hplace⟩

/-- Directories are made and nothing else changes, and the path leads to one. -/
theorem createDirAll_spec (h : fs.createDirAll start parts = .ok fs') : Grows fs fs' ∧
    ∃ left place, fs'.lead ⟨start, parts⟩ = .ok (left, place) ∧
      fs'.node place = some .directory := by
  induction parts generalizing fs' with
  | nil =>
    unfold createDirAll at h
    split_ifs at h with hthere
    cases h
    refine ⟨.refl fs, ?_⟩
    rcases hthere with hisdir | rfl
    · exact lead_of_isDir hisdir
    · exact ⟨fs.limit, fs.cwd, walk_nil, fs.stands⟩
  | cons part parent ih =>
    unfold createDirAll at h
    cases hfirst : fs.mkdir ⟨start, part :: parent⟩ with
    | ok made =>
      rw [hfirst] at h
      cases h
      exact mkdir_leads hfirst
    | error fault =>
      rw [hfirst] at h
      cases fault with
      | notFound =>
        cases habove : fs.createDirAll start parent with
        | error fault =>
          rw [habove] at h
          cases h
        | ok above =>
          rw [habove] at h
          simp only [Except.bind] at h
          obtain ⟨hgrows, _⟩ := ih habove
          cases hsecond : above.mkdir ⟨start, part :: parent⟩ with
          | ok made =>
            rw [hsecond] at h
            cases h
            obtain ⟨hlater, hleads⟩ := mkdir_leads hsecond
            exact ⟨hgrows.trans hlater, hleads⟩
          | error fault =>
            rw [hsecond] at h
            dsimp only at h
            split_ifs at h with hisdir
            cases h
            exact ⟨hgrows, lead_of_isDir hisdir⟩
      | alreadyExists | notDirectory | loop =>
        dsimp only at h
        split_ifs at h with hisdir
        cases h
        exact ⟨.refl _, lead_of_isDir hisdir⟩

/-- Assumes: something at a name that leads nowhere, as a link to nothing does. No directory is made
through it. -/
theorem createDirAll_stuck (hfront : fs.lead ⟨start, parts⟩ = .ok (left, place))
    (hnode : fs.node (name :: place) ≠ none)
    (hnowhere : ∀ left last, fs.lead ⟨start, .name name :: parts⟩ ≠ .ok (left, last))
    (below : List Part) : fs.createDirAll start (below ++ .name name :: parts) ≠ .ok fs' := by
  have hnone : ∀ (below : List Part) (left : ℕ) (last : Place),
      fs.lead ⟨start, below ++ .name name :: parts⟩ ≠ .ok (left, last) := by
    intro below left last hlead
    obtain ⟨mid, between, hmid, _⟩ := lead_split hlead
    exact hnowhere mid between hmid
  have hnotdir : ∀ below : List Part,
      fs.isDir ⟨start, below ++ .name name :: parts⟩ = false := by
    intro below
    by_contra hisdir
    obtain ⟨left, last, hlead, _⟩ := lead_of_isDir (eq_true_of_ne_false hisdir)
    exact hnone below left last hlead
  induction below generalizing fs' with
  | nil =>
    have hexists : fs.mkdir ⟨start, .name name :: parts⟩ = .error .alreadyExists := by
      simp [mkdir, hfront, fs.rooted name place hnode, hnode]
    have hnot : fs.isDir ⟨start, .name name :: parts⟩ = false := hnotdir []
    simp [createDirAll, hexists, hnot]
  | cons part below ih =>
    have hnot : fs.isDir ⟨start, part :: (below ++ .name name :: parts)⟩ = false :=
      hnotdir (part :: below)
    rw [List.cons_append, createDirAll]
    cases hfirst : fs.mkdir ⟨start, part :: (below ++ .name name :: parts)⟩ with
    | ok made =>
      obtain ⟨_, _, left, last, hparts, hlead, _⟩ := mkdir_spec hfirst
      obtain ⟨-, rfl⟩ := List.cons.inj hparts
      exact absurd hlead (hnone below left last)
    | error fault =>
      cases fault with
      | notFound =>
        cases habove : fs.createDirAll start (below ++ .name name :: parts) with
        | ok above => exact absurd habove ih
        | error fault => simp [Except.bind]
      | alreadyExists | notDirectory | loop => simp [hnot]

end Files

end Nodal.Foundation.Places
