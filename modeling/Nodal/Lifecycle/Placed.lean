import Nodal.Foundation.Places

/-!
# The place of a new home

`lifecycle/guard.rs` and `paths.rs`: before a home is made, the path it will be made at is resolved as
far as it exists, and refused where it overlaps the source, a recorded root or a recorded home, or is
under a directory that carries a marker. `new` then makes the parents of the home and the home.

Resolving puts the missing names back on the longest part that is there, and gives the path back as it
was written where a `..` stands among what is missing, or where no part is there at all. Such a path is
compared by its text. `placement_apart_iff` says of which homes the check is sound; a link before a
missing `..` hides an overlap from it (`beyond_gone_overlaps`).
-/

set_option autoImplicit false

namespace Nodal.Placed

open Foundation.Places

/-- What a refused destination overlapped with, in the words the message uses. -/
def SOURCE : String := "the tree it would be cloned from"

def PROJECT : String := "a project Nodal manages"

def HOME : String := "another unit's home"

inductive Error
  | insideSource (home tree : Route) (what : String)
  deriving DecidableEq

/-- The trees the registry has a row of: the roots of the projects, and the homes of every
materialisation. -/
structure Recorded where
  projects : List Route
  homes : List Route

/-- The trees a home may not overlap. -/
def Recorded.trees (recorded : Recorded) (source : Route) : List Route :=
  source :: (recorded.projects ++ recorded.homes)

variable (fs : Files)

/-! ### Resolving a path -/

/-- The longest front of a path that is there, resolved, with the names after it put back on. -/
def resolveParts (start : Start) (parts : List Part) : Option Place :=
  match fs.canonicalize ⟨start, parts⟩ with
  | some real => some real
  | none =>
    match parts with
    | .name name :: parent => (resolveParts start parent).map (name :: ·)
    | _ => none

/-- A path with every symbolic link on it resolved, as far as it exists. -/
def resolve (path : Route) : Route :=
  match resolveParts fs path.start path.parts with
  | some real => route real
  | none => path

/-! ### The guard -/

/-- Whether a path begins with the components of another. -/
def startsWith (path other : Route) : Bool :=
  other = ⟨.here, []⟩ || path.start = other.start && other.parts.isSuffixOf path.parts

/-- Refuse a destination that holds `other` or sits inside it. -/
def refuseOverlap (placed home other : Route) (what : String) : Except Error Unit :=
  if startsWith placed (resolve fs other) || startsWith (resolve fs other) placed then
    .error (.insideSource home (resolve fs other) what)
  else .ok ()

/-- A path and the paths above it. Above `.` is the empty path. -/
def ancestors (path : Route) : List Route :=
  path.parts.tails.map (⟨path.start, ·⟩) ++ if path.start = .dot then [⟨.here, []⟩] else []

/-- Where the marker sits inside a home: `.nodal/id`. -/
def markerPath (home : Route) : Route :=
  ⟨home.start, .name "id" :: .name ".nodal" :: home.parts⟩

/-- Refuse a destination under a directory that is already some unit's home. -/
def refuseMarkedAncestor (placed home : Route) : Except Error Unit :=
  match (ancestors placed).find? fun ancestor ↦ fs.isFile (markerPath ancestor) with
  | some ancestor => .error (.insideSource home ancestor HOME)
  | none => .ok ()

/-- Refuse a home that overlaps the tree it comes from, a project, or another home. -/
def placement (recorded : Recorded) (home source : Route) : Except Error Unit := do
  let placed := resolve fs home
  refuseOverlap fs placed home source SOURCE
  recorded.projects.forM fun root ↦ refuseOverlap fs placed home root PROJECT
  recorded.homes.forM fun other ↦ refuseOverlap fs placed home other HOME
  refuseMarkedAncestor fs placed home

/-! ### Making the home -/

/-- The place a home is made at: the directories above it are made, then the directory itself, which
may not be there. -/
def made (home : Route) : Option Place := do
  let above ← (fs.createDirAll home.start home.parts.tail).toOption
  let after ← (above.mkdir home).toOption
  after.canonicalize home

/-- One place is the other, or one contains the other. -/
def Overlap (place other : Place) : Prop := place <:+ other ∨ other <:+ place

/-- A path names a place: a front of it leads somewhere, and the rest are names, the first of which is
not there. -/
def Names (path : Route) (place : Place) : Prop :=
  ∃ (missing : List String) (front : List Part) (there : Place),
    path.parts = missing.map .name ++ front ∧ fs.canonicalize ⟨path.start, front⟩ = some there ∧
      place = missing ++ there ∧
      ∀ first, missing.getLast? = some first → fs.node (first :: there) = none

/-- A directory the path goes through, as it is written, carries a marker. -/
def Marked (path : Route) : Prop :=
  ∃ ancestor ∈ ancestors path, fs.isFile (markerPath ancestor) = true

/-! ### Where a path resolves to -/

variable {fs} {above after : Files} {start : Start} {parts front : List Part} {path home : Route}
  {place there : Place}

theorem resolveParts_missing {missing : List String}
    (hthere : fs.canonicalize ⟨start, front⟩ = some there)
    (hmissing : ∀ first, missing.getLast? = some first → fs.node (first :: there) = none) :
    resolveParts fs start (missing.map .name ++ front) = some (missing ++ there) := by
  induction missing with
  | nil =>
    rw [List.map_nil, List.nil_append, resolveParts.eq_def, hthere]
    rfl
  | cons name missing ih =>
    have hnot : fs.canonicalize ⟨start, (name :: missing).map .name ++ front⟩ = none := by
      by_contra hsome
      obtain ⟨last, hlast⟩ := Option.ne_none_iff_exists'.mp hsome
      obtain ⟨_, left, hlead⟩ := Files.canonicalize_eq_some_iff.mp hlast
      obtain ⟨mid, between, hfront, hend⟩ := Files.lead_split hlead
      obtain ⟨_, left', hlead'⟩ := Files.canonicalize_eq_some_iff.mp hthere
      obtain ⟨-, rfl⟩ := Prod.mk.inj (Except.ok.inj (hfront.symm.trans hlead'))
      rw [← List.map_reverse] at hend
      have hlast : ((name :: missing).reverse).head? = some ((name :: missing).getLast (by simp)) := by
        rw [List.head?_reverse, List.getLast?_eq_some_getLast]
      exact Files.not_leads_missing hlast
        (hmissing _ (List.getLast?_eq_some_getLast _)) hend
    rw [List.map_cons, List.cons_append] at hnot ⊢
    rw [resolveParts.eq_def, hnot]
    dsimp only
    rw [ih, Option.map_some]
    · rfl
    · intro first hfirst
      refine hmissing first ?_
      cases missing with
      | nil => cases hfirst
      | cons next missing => exact (List.getLast?_cons_cons).trans hfirst

/-- A path that names a place resolves to it. -/
theorem Names.resolve_eq (h : Names fs path place) : resolve fs path = route place := by
  obtain ⟨missing, front, there, hparts, hthere, rfl, hmissing⟩ := h
  rw [resolve, hparts, resolveParts_missing hthere hmissing]

/-- What a path resolves to is what its longest front leads to, and the names after it. -/
theorem resolveParts_spec (h : resolveParts fs start parts = some place) :
    ∃ (missing : List String) (front : List Part) (there : Place),
      parts = missing.map .name ++ front ∧ fs.canonicalize ⟨start, front⟩ = some there ∧
        place = missing ++ there ∧
        ∀ first, missing.getLast? = some first → fs.canonicalize ⟨start, .name first :: front⟩ = none := by
  induction parts generalizing place with
  | nil =>
    rw [resolveParts.eq_def] at h
    cases hreal : fs.canonicalize ⟨start, []⟩ with
    | none =>
      rw [hreal] at h
      cases h
    | some real =>
      rw [hreal] at h
      exact ⟨[], [], real, rfl, hreal, (Option.some.inj h).symm, fun _ hfirst ↦ by cases hfirst⟩
  | cons part parent ih =>
    rw [resolveParts.eq_def] at h
    cases hreal : fs.canonicalize ⟨start, part :: parent⟩ with
    | some real =>
      rw [hreal] at h
      exact ⟨[], part :: parent, real, rfl, hreal, (Option.some.inj h).symm,
        fun _ hfirst ↦ by cases hfirst⟩
    | none =>
      rw [hreal] at h
      cases part with
      | up => cases h
      | name name =>
        obtain ⟨above, habove, rfl⟩ := Option.map_eq_some_iff.mp h
        obtain ⟨missing, front, there, rfl, hthere, rfl, hmissing⟩ := ih habove
        refine ⟨name :: missing, front, there, rfl, hthere, rfl, fun first hfirst ↦ ?_⟩
        cases missing with
        | nil =>
          obtain rfl := Option.some.inj hfirst
          exact hreal
        | cons next missing => exact hmissing first (List.getLast?_cons_cons.symm.trans hfirst)

/-- A path that is given back as it was written has a `..`, or is not from the root. -/
theorem resolveParts_none (h : resolveParts fs start parts = none) : start ≠ .root ∨ .up ∈ parts := by
  induction parts with
  | nil =>
    left
    rintro rfl
    rw [resolveParts.eq_def] at h
    have hroot : fs.canonicalize ⟨.root, []⟩ = some [] := by
      simp [Files.canonicalize, Files.lead, Files.base, Files.walk_nil, Except.toOption]
    rw [hroot] at h
    cases h
  | cons part parent ih =>
    cases part with
    | up => exact Or.inr List.mem_cons_self
    | name name =>
      rw [resolveParts.eq_def] at h
      cases hreal : fs.canonicalize ⟨start, .name name :: parent⟩ with
      | some real =>
        rw [hreal] at h
        cases h
      | none =>
        rw [hreal] at h
        exact (ih (Option.map_eq_none_iff.mp h)).imp_right (List.mem_cons_of_mem _)

/-! ### Where a home is made -/

/-- A home is made in a directory, where nothing was. -/
theorem made_spec (h : made fs home = some place) : ∃ above after left,
    fs.createDirAll home.start home.parts.tail = .ok above ∧ above.mkdir home = .ok after ∧
      Files.Grows fs after ∧ after.lead home = .ok (left, place) ∧ fs.node place = none ∧
      after.node place = some .directory := by
  obtain ⟨above, habove, h⟩ := Option.bind_eq_some_iff.mp h
  obtain ⟨after, hafter, hreal⟩ := Option.bind_eq_some_iff.mp h
  have habove' : fs.createDirAll home.start home.parts.tail = .ok above := by
    revert habove
    cases fs.createDirAll home.start home.parts.tail with
    | error fault => exact fun h ↦ by cases h
    | ok above => exact fun h ↦ by rw [Option.some.inj h]
  have hafter' : above.mkdir home = .ok after := by
    revert hafter
    cases above.mkdir home with
    | error fault => exact fun h ↦ by cases h
    | ok after => exact fun h ↦ by rw [Option.some.inj h]
  obtain ⟨hgrows, _⟩ := Files.createDirAll_spec habove'
  obtain ⟨name, _, left, parent, _, _, hnone, hlater, hlead, hnode⟩ := Files.mkdir_spec hafter'
  obtain ⟨_, left', hlead'⟩ := Files.canonicalize_eq_some_iff.mp hreal
  obtain ⟨-, rfl⟩ := Prod.mk.inj (Except.ok.inj (hlead.symm.trans hlead'))
  refine ⟨above, after, left, habove', hafter', hgrows.trans hlater, hlead, ?_, hnode⟩
  rcases hgrows.node (name :: parent) with hsame | ⟨hfree, _⟩
  · exact hsame.symm.trans hnone
  · exact hfree

/-- Assumes: a path that names a place. A home made at that path is made there. -/
theorem Names.made_eq {named : Place} (hnames : Names fs home named) (h : made fs home = some place) :
    place = named := by
  obtain ⟨missing, front, there, hparts, hthere, rfl, hmissing⟩ := hnames
  obtain ⟨_, after, left, _, _, hgrows, hlead, _⟩ := made_spec h
  obtain ⟨_, left', hfront⟩ := Files.canonicalize_eq_some_iff.mp hthere
  have hhome : home = ⟨home.start, missing.map .name ++ front⟩ := by rw [← hparts]
  rw [hhome] at hlead
  obtain ⟨mid, between, hfront', hend⟩ := Files.lead_split hlead
  obtain ⟨-, rfl⟩ := Prod.mk.inj (Except.ok.inj (hfront'.symm.trans (Files.lead_grows hfront hgrows)))
  rw [← List.map_reverse] at hend
  cases hreverse : missing.reverse with
  | nil =>
    obtain rfl := List.reverse_eq_nil_iff.mp hreverse
    cases hend
    rfl
  | cons first names =>
    rw [hreverse] at hend
    have hfirst : missing.getLast? = some first := by
      rw [← List.head?_reverse, hreverse]
      rfl
    obtain ⟨-, rfl⟩ := Files.leads_plain (hgrows.plain (hmissing first hfirst)) hend
    rw [List.reverse_eq_cons_iff.mp hreverse, List.append_assoc, List.singleton_append]

/-- A home that was made, and that resolves to a place, has a path that names it. -/
theorem names_of_resolveParts {named : Place} (h : made fs home = some place)
    (hresolve : resolveParts fs home.start home.parts = some named) : Names fs home named := by
  obtain ⟨missing, front, there, hparts, hthere, rfl, hmissing⟩ := resolveParts_spec hresolve
  refine ⟨missing, front, there, hparts, hthere, rfl, fun first hfirst ↦ ?_⟩
  by_contra hnode
  obtain ⟨above, after, left, habove, hafter, _⟩ := made_spec h
  obtain ⟨_, left', hfront⟩ := Files.canonicalize_eq_some_iff.mp hthere
  obtain ⟨before, rfl⟩ : ∃ before, missing = before ++ [first] :=
    ⟨missing.dropLast, (List.dropLast_append_getLast? first hfirst).symm⟩
  rw [List.map_append, List.append_assoc] at hparts
  cases before with
  | nil =>
    rw [hparts] at habove
    obtain ⟨hgrows, _⟩ := Files.createDirAll_spec habove
    obtain ⟨name, parent, left, place, hparts', hlead, hnone, _⟩ := Files.mkdir_spec hafter
    obtain ⟨hname, rfl⟩ := List.cons.inj (hparts.symm.trans hparts')
    obtain rfl := Part.name.inj hname
    obtain ⟨-, rfl⟩ := Prod.mk.inj (Except.ok.inj (hlead.symm.trans (Files.lead_grows hfront hgrows)))
    obtain ⟨node, hsome⟩ := Option.ne_none_iff_exists'.mp hnode
    cases hnone.symm.trans (hgrows.some hsome)
  | cons next before =>
    rw [hparts] at habove
    refine Files.createDirAll_stuck hfront hnode (fun left last hlead ↦ ?_) (before.map .name) habove
    have hreal := Files.canonicalize_eq_some_iff.mpr
      ⟨fun h ↦ List.cons_ne_nil _ _ (congrArg Route.parts h), left, hlead⟩
    cases (hmissing first hfirst).symm.trans hreal

/-- The path of a place names it, where nothing but directories is on the way. -/
theorem names_route (h : ∀ above, above <:+ place →
    fs.node above = none ∨ fs.node above = some .directory) : Names fs (route place) place := by
  induction place with
  | nil => exact ⟨[], [], [], rfl, Files.canonicalize_eq_some_iff.mpr
      ⟨fun h ↦ (by cases h), _, Files.lead_route fs.root⟩, rfl, fun _ hfirst ↦ by cases hfirst⟩
  | cons name place ih =>
    rcases h (name :: place) (List.suffix_refl _) with hnone | hdirectory
    · obtain ⟨missing, front, there, hparts, hthere, rfl, hmissing⟩ :=
        ih fun above habove ↦ h above (habove.trans (List.suffix_cons _ _))
      refine ⟨name :: missing, front, there, congrArg (_ :: ·) hparts, hthere, rfl,
        fun first hfirst ↦ ?_⟩
      cases missing with
      | nil =>
        obtain rfl := Option.some.inj hfirst
        exact hnone
      | cons next missing => exact hmissing first (List.getLast?_cons_cons.symm.trans hfirst)
    · exact ⟨[], _, name :: place, rfl, Files.canonicalize_eq_some_iff.mpr
        ⟨fun h ↦ (by cases h), _, Files.lead_route hdirectory⟩, rfl, fun _ hfirst ↦ by cases hfirst⟩

/-! ### What the guard accepts -/

theorem startsWith_iff {other : Route} : startsWith path other = true ↔
    other = ⟨.here, []⟩ ∨ path.start = other.start ∧ other.parts <:+ path.parts := by
  simp [startsWith]

theorem startsWith_route {place other : Place} :
    startsWith (route place) (route other) = true ↔ other <:+ place := by
  have hinj : Function.Injective Part.name := fun _ _ ↦ Part.name.inj
  simp [startsWith_iff, route, List.suffix_map_iff_of_injective hinj]

theorem refuseOverlap_eq_ok_iff {placed other : Route} {what : String} :
    refuseOverlap fs placed home other what = .ok () ↔
      startsWith placed (resolve fs other) = false ∧ startsWith (resolve fs other) placed = false := by
  unfold refuseOverlap
  cases startsWith placed (resolve fs other) <;> cases startsWith (resolve fs other) placed <;> simp

theorem refuseMarkedAncestor_eq_ok_iff {placed : Route} :
    refuseMarkedAncestor fs placed home = .ok () ↔ ¬ Marked fs placed := by
  unfold refuseMarkedAncestor
  cases hfound : (ancestors placed).find? fun ancestor ↦ fs.isFile (markerPath ancestor) with
  | some ancestor =>
    refine iff_of_false (fun h ↦ by cases h) (not_not.mpr ?_)
    have hfile : fs.isFile (markerPath ancestor) = true := by simpa using List.find?_some hfound
    exact ⟨ancestor, List.mem_of_find?_eq_some hfound, hfile⟩
  | none =>
    refine iff_of_true rfl ?_
    rintro ⟨ancestor, hancestor, hfile⟩
    exact absurd hfile (List.find?_eq_none.mp hfound ancestor hancestor)

theorem bind_eq_ok_iff {first rest : Except Error Unit} :
    (first >>= fun _ ↦ rest) = .ok () ↔ first = .ok () ∧ rest = .ok () := by
  cases first <;> simp [Bind.bind, Except.bind]

theorem forM_eq_ok_iff {check : Route → Except Error Unit} {rows : List Route} :
    rows.forM check = .ok () ↔ ∀ row ∈ rows, check row = .ok () := by
  induction rows with
  | nil => exact iff_of_true rfl (fun _ h ↦ absurd h List.not_mem_nil)
  | cons row rows ih =>
    rw [List.forall_mem_cons, ← ih, ← bind_eq_ok_iff]
    rfl

/-- A home is accepted where no tree overlaps it as both are resolved, and nothing above it is marked. -/
theorem placement_eq_ok_iff {recorded : Recorded} {source : Route} :
    placement fs recorded home source = .ok () ↔
      (∀ tree ∈ recorded.trees source, startsWith (resolve fs home) (resolve fs tree) = false ∧
        startsWith (resolve fs tree) (resolve fs home) = false) ∧ ¬ Marked fs (resolve fs home) := by
  simp only [placement, bind_eq_ok_iff, forM_eq_ok_iff, refuseOverlap_eq_ok_iff,
    refuseMarkedAncestor_eq_ok_iff, Recorded.trees, List.forall_mem_cons, List.forall_mem_append,
    and_assoc]

/-- Assumes: a home whose path names its place. What is accepted overlaps no tree at the place that
tree's path names. -/
theorem Names.placement_apart {recorded : Recorded} {source tree : Route} {other : Place}
    (hhome : Names fs home place) (h : placement fs recorded home source = .ok ())
    (htree : tree ∈ recorded.trees source) (hother : Names fs tree other) : ¬ Overlap place other := by
  obtain ⟨hapart, hinside⟩ := (placement_eq_ok_iff.mp h).1 tree htree
  rw [hhome.resolve_eq, hother.resolve_eq] at hapart hinside
  rintro (hwithin | hwithin)
  · exact absurd (startsWith_route.mpr hwithin) (by simp [hinside])
  · exact absurd (startsWith_route.mpr hwithin) (by simp [hapart])

theorem exists_length_bound (parts : List Part) :
    ∃ bound, ∀ name, Part.name name ∈ parts → name.length ≤ bound := by
  induction parts with
  | nil => exact ⟨0, fun _ h ↦ absurd h List.not_mem_nil⟩
  | cons part parts ih =>
    obtain ⟨bound, hbound⟩ := ih
    cases part with
    | up => exact ⟨bound, fun name h ↦ hbound name (by simpa using h)⟩
    | name first =>
      refine ⟨max first.length bound, fun name h ↦ ?_⟩
      rcases List.mem_cons.mp h with hfirst | hrest
      · rw [Part.name.inj hfirst]
        exact Nat.le_max_left _ _
      · exact (hbound name hrest).trans (Nat.le_max_right _ _)

/-- Some name is not a part of a path. -/
theorem exists_name_notMem (parts : List Part) : ∃ name, Part.name name ∉ parts := by
  obtain ⟨bound, hbound⟩ := exists_length_bound parts
  refine ⟨String.ofList (List.replicate (bound + 1) 'a'), fun h ↦ ?_⟩
  have hlength := hbound _ h
  rw [String.length_ofList, List.length_replicate] at hlength
  exact Nat.not_succ_le_self bound hlength

/-- Assumes: a home that is made, whose path is given back as it is written and goes through nothing
marked. A tree inside the place it is made at is not seen. -/
theorem accepts_inside (h : made fs home = some place)
    (hresolve : resolveParts fs home.start home.parts = none) (hmarked : ¬ Marked fs home) :
    ∃ tree inside, Names fs tree inside ∧ place <:+ inside ∧
      placement fs ⟨[], []⟩ home tree = .ok () := by
  obtain ⟨_, after, _, _, hmade, hgrows, _, hnone, hnode⟩ := made_spec h
  obtain ⟨name, hname⟩ := exists_name_notMem home.parts
  have hnames : Names fs (route (name :: place)) (name :: place) := by
    refine names_route fun above habove ↦ ?_
    rcases List.suffix_cons_iff.mp habove with rfl | hsuffix
    · exact Or.inl (Files.node_below hnone [name])
    · have hdirectory : after.node above = some .directory := Files.node_above hnode hsuffix
      rcases hgrows.node above with hsame | ⟨hfree, _⟩
      · exact Or.inr (hsame.symm.trans hdirectory)
      · exact Or.inl hfree
  have hself : resolve fs home = home := by rw [resolve, hresolve]
  refine ⟨route (name :: place), name :: place, hnames, List.suffix_cons name place, ?_⟩
  rw [placement_eq_ok_iff, hself]
  refine ⟨fun tree htree ↦ ?_, hmarked⟩
  obtain rfl : tree = route (name :: place) := by simpa [Recorded.trees] using htree
  rw [hnames.resolve_eq]
  constructor
  · rw [Bool.eq_false_iff, ne_eq, startsWith_iff]
    rintro (hempty | ⟨_, hsuffix⟩)
    · cases hempty
    · exact hname (hsuffix.subset (List.mem_map_of_mem List.mem_cons_self))
  · rw [Bool.eq_false_iff, ne_eq, startsWith_iff]
    rintro (hempty | ⟨hroot, hsuffix⟩)
    · obtain ⟨_, _, _, _, hparts, _⟩ := Files.mkdir_spec hmade
      rw [hempty] at hparts
      cases hparts
    · rcases resolveParts_none hresolve with hstart | hup
      · exact hstart hroot.symm
      · obtain ⟨_, _, h⟩ := List.mem_map.mp (hsuffix.subset hup)
        cases h

/-- Assumes: a home that a directory can be made at. Every home the guard accepts there overlaps no
tree it knows, whatever the registry holds, exactly when the path of the home names a place, or the
guard accepts none there because of a marker. -/
theorem placement_apart_iff (fs : Files) (home : Route) (place : Place)
    (h : made fs home = some place) :
    (∀ (recorded : Recorded) (source : Route), placement fs recorded home source = .ok () →
      ∀ tree ∈ recorded.trees source, ∀ other, Names fs tree other → ¬ Overlap place other) ↔
    (∃ named, Names fs home named) ∨ Marked fs home := by
  constructor
  · intro hapart
    by_contra hnot
    obtain ⟨hnames, hmarked⟩ := not_or.mp hnot
    have hresolve : resolveParts fs home.start home.parts = none := by
      by_contra hsome
      obtain ⟨named, hnamed⟩ := Option.ne_none_iff_exists'.mp hsome
      exact hnames ⟨named, names_of_resolveParts h hnamed⟩
    obtain ⟨tree, inside, hinside, hwithin, haccepts⟩ := accepts_inside h hresolve hmarked
    exact hapart ⟨[], []⟩ tree haccepts tree List.mem_cons_self inside hinside (Or.inl hwithin)
  · intro hnames recorded source haccepts tree htree other hother
    rcases hresolve : resolveParts fs home.start home.parts with _ | named
    · rcases hnames with ⟨named, hnamed⟩ | hmarked
      · rw [hnamed.made_eq h]
        exact hnamed.placement_apart haccepts htree hother
      · have hself : resolve fs home = home := by rw [resolve, hresolve]
        exact absurd hmarked (hself ▸ (placement_eq_ok_iff.mp haccepts).2)
    · have hnamed := names_of_resolveParts h hresolve
      rw [hnamed.made_eq h]
      exact hnamed.placement_apart haccepts htree hother

/-- A machine with a project in `/w`, and a link to it at `/l`. -/
def linked : Files where
  node
    | [] | ["w"] | ["project", "w"] => some .directory
    | ["l"] => some (.link (route ["project", "w"]))
    | _ => none
  root := rfl
  rooted name place h := by
    split at h <;> simp_all
  limit := 40
  cwd := []
  stands := rfl

/-- A home beside the project is made where its path says, and everything accepted there is apart. -/
theorem placement_apart_beside :
    made linked (route ["h", "w"]) = some ["h", "w"] ∧
      ((∀ (recorded : Recorded) (source : Route),
        placement linked recorded (route ["h", "w"]) source = .ok () →
          ∀ tree ∈ recorded.trees source, ∀ other, Names linked tree other →
            ¬ Overlap ["h", "w"] other) ↔
        (∃ named, Names linked (route ["h", "w"]) named) ∨ Marked linked (route ["h", "w"])) :=
  ⟨rfl, placement_apart_iff linked (route ["h", "w"]) ["h", "w"] rfl⟩

/-- `/l/gone/../h` is accepted for a home of the project in `/w/project`, and made inside it: the path
is compared as it is written, and the link before the missing part is not seen. -/
theorem beyond_gone_overlaps :
    placement linked ⟨[route ["project", "w"]], []⟩
        ⟨.root, [.name "h", .up, .name "gone", .name "l"]⟩ (route ["project", "w"]) = .ok () ∧
      made linked ⟨.root, [.name "h", .up, .name "gone", .name "l"]⟩ = some ["h", "project", "w"] ∧
      linked.canonicalize (route ["project", "w"]) = some ["project", "w"] ∧
      Overlap ["h", "project", "w"] ["project", "w"] := by
  refine ⟨?_, ?_, ?_, Or.inr (List.suffix_cons _ _)⟩
  · rfl
  · rfl
  · rfl

end Nodal.Placed
