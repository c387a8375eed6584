import Nodal.Git.Remote
import Nodal.Model.Scalar
import Nodal.Sweep.Named

/-!
# Which project a directory belongs to, to a reader and to the writer

`lifecycle/identity.rs`, `lifecycle/ops/new.rs`: a reader walks up from the directory it stands in and
takes the first that a project is recorded at, then the project of the repository the checkout is a
clone of (`World.projectContaining`). The writer starts from the top of the checkout, asks for that
one path and then for the repository, gives the row it found the remote it has not, and records a row
where there is none (`ensureProject`).

The two answer with one project exactly when the reader stops at the top of the checkout, and the row
recorded there can be given its remote (`one_answer_iff`).
-/

set_option autoImplicit false

namespace Nodal.Identity

open Foundation Model Sweep

/-! ### The rows -/

/-- A row with the remote it had not. -/
def filled (remote : String) (project : Project) : Project :=
  if project.remoteUrl = none then { project with remoteUrl := some remote } else project

theorem filled_id (remote : String) (project : Project) :
    (filled remote project).id = project.id ∧ (filled remote project).root = project.root := by
  unfold filled
  split <;> exact ⟨rfl, rfl⟩

/-- The registry with the remote of one row filled. -/
def fill (registry : Registry) (id : ProjectId) (remote : String) : Registry :=
  { registry with
    projects := registry.projects.modify id (filled remote)
    projects_keyed := by
      rintro ⟨key, row⟩ hrow
      obtain ⟨old, hold, rfl | rfl⟩ := Table.mem_rows_modify hrow
      · exact registry.projects_keyed _ hold
      · exact (filled_id remote old).1.trans (registry.projects_keyed _ hold)
    root_unique := by
      have hfrom : ∀ p ∈ (registry.projects.modify id (filled remote)).values,
          ∃ old ∈ registry.projects.values, p.id = old.id ∧ p.root = old.root := by
        intro p hp
        obtain ⟨⟨key, row⟩, hrow, rfl⟩ := List.mem_map.mp hp
        obtain ⟨old, hold, rfl | rfl⟩ := Table.mem_rows_modify hrow
        · exact ⟨row, List.mem_map.mpr ⟨_, hold, rfl⟩, rfl, rfl⟩
        · exact ⟨old, List.mem_map.mpr ⟨_, hold, rfl⟩, filled_id remote old⟩
      intro p hp p' hp' hroot
      obtain ⟨old, hold, hid, hplace⟩ := hfrom p hp
      obtain ⟨old', hold', hid', hplace'⟩ := hfrom p' hp'
      rw [hid, hid']
      exact registry.root_unique old hold old' hold' (by rw [← hplace, ← hplace', hroot])
    unit_project := by
      intro unit hunit
      by_cases hid : unit.projectId = id
      · subst hid
        rw [Table.get?_modify_self, Option.isSome_map]
        exact registry.unit_project unit hunit
      · rw [Table.get?_modify_of_ne hid]
        exact registry.unit_project unit hunit }

/-- Record which repository a project is, where its row has no remote yet. Two rows cannot carry one
remote. -/
def setRemoteUrl (registry : Registry) (id : ProjectId) (remote : String) : Except Error Registry :=
  if (registry.projects.get? id).any (·.remoteUrl = none) ∧
      (registry.findByRemote remote).isSome = true then .error .store
  else .ok (fill registry id remote)

/-- Record a project. Two rows cannot share an identifier, a root or a remote. -/
def insert (registry : Registry) (project : Project) : Except Error Registry :=
  if h : registry.projects.get? project.id = none ∧
      (∀ p ∈ registry.projects.values, p.root ≠ project.root) ∧
      project.remoteUrl.all fun remote ↦ (registry.findByRemote remote).isNone then
    .ok { registry with
      projects := registry.projects.set project.id project
      projects_keyed := by
        rintro ⟨key, row⟩ hrow
        rcases Table.mem_rows_set hrow with ⟨rfl, rfl⟩ | hrow
        · rfl
        · exact registry.projects_keyed _ hrow
      root_unique := by
        intro p hp p' hp' hroot
        rcases Table.mem_values_set hp with rfl | hold
        · rcases Table.mem_values_set hp' with rfl | hold'
          · rfl
          · exact absurd hroot.symm (h.2.1 p' hold')
        · rcases Table.mem_values_set hp' with rfl | hold'
          · exact absurd hroot (h.2.1 p hold)
          · exact registry.root_unique p hold p' hold' hroot
      unit_project := by
        intro unit hunit
        by_cases hid : unit.projectId = project.id
        · rw [hid, Table.get?_set_self]
          rfl
        · rw [Table.get?_set_of_ne hid]
          exact registry.unit_project unit hunit }
  else .error .store

/-! ### The writer -/

/-- New ULIDs, none of which is one of those in use. -/
structure Ulids where
  next : List ProjectId → ProjectId
  fresh : ∀ ids, next ids ∉ ids

/-- What a project is called: the name of the directory it is rooted at. -/
def nameOf (root : Path) : String :=
  ((root.names.head?).filter fun name ↦ LINE name.toList).getD "project"

variable (ulids : Ulids) (w : World)

/-- The recorded project for the checkout at a root. -/
def projectAt (root : Path) : Option Project :=
  match w.registry.findByRoot root with
  | some found => some found
  | none => (w.disk.remoteOf (w.locate root)).bind w.registry.findByRemote

/-- The recorded project for a checkout, with the remote its row had not. -/
def find (root : Path) (remote : Option String) : Except Error (Option (Project × Registry)) :=
  match projectAt w root with
  | none => .ok none
  | some found =>
    match remote, found.remoteUrl with
    | some remote, none => do
      let registry ← setRemoteUrl w.registry found.id remote
      return some ({ found with remoteUrl := some remote }, registry)
    | _, _ => .ok (some (found, w.registry))

/-- The project of the checkout at a root, recorded where it is not. -/
def ensureProject (root : Path) : Except Error (Project × Registry) := do
  let root := w.resolve root
  let remote := w.disk.remoteOf (w.locate root)
  if let some (found, registry) ← find w root remote then return (World.here found root, registry)
  let fresh : Project := ⟨ulids.next w.registry.projects.keys, nameOf root, root, remote⟩
  -- the transaction asks again before it writes
  match ← find w root remote with
  | some (found, registry) => return (World.here found root, registry)
  | none =>
    let registry ← insert w.registry fresh
    return (World.here fresh root, registry)

/-! ### Checkouts inside checkouts -/

/-- Where the checkouts are, each with the URL of its `origin`. -/
structure Checkouts where
  origin : Place → Option (Option Text)

namespace Checkouts

variable (lower : Text → Text) (checkouts : Checkouts)

/-- The top of the checkout Git finds from a place. -/
def topLevel (place : Place) : Option Place :=
  place.tails.find? fun directory ↦ (checkouts.origin directory).isSome

/-- Which repository the checkout Git finds from a place is a clone of. -/
def remoteOf (place : Place) : Option String := do
  let top ← checkouts.topLevel place
  let url ← (checkouts.origin top).join
  let remote : Scalar LINE ← (Git.Remote.identity lower url).bind Scalar.parse
  return String.ofList remote.text

/-- A disk with these checkouts, whose directories are named as they really are. -/
def disk (disk : Disk) : Disk :=
  { disk with
    canonicalize := some
    remoteOf := checkouts.remoteOf lower
    topLevel := checkouts.topLevel }

end Checkouts

/-! ### One answer -/

/-- The reader's answer is the writer's: one project in one place, or none where the writer records a
new one. -/
def OneAnswer (registry : Registry) (reading : Option Project)
    (writing : Except Error (Project × Registry)) : Prop :=
  ∃ ensured registry', writing = .ok (ensured, registry') ∧
    match reading with
    | some project => ensured.id = project.id ∧ ensured.root = project.root
    | none => registry.projects.get? ensured.id = none

/-- The nearest place at or above a place that a project is recorded at. -/
def nearest (registry : Registry) (place : Place) : Option Place :=
  place.tails.find? fun directory ↦ (registry.findByRoot ⟨true, directory⟩).isSome

/-- The row recorded at a root has its remote, or the remote it is to be given is no other row's. -/
def Fillable (registry : Registry) (root : Path) (remote : Option String) : Prop :=
  ∀ project, registry.findByRoot root = some project → project.remoteUrl = none →
    ∀ url, remote = some url → registry.findByRemote url = none

variable {ulids} {lower : Text → Text} {checkouts : Checkouts} {registry : Registry} {base : Disk}
  {cwd place top : Place}

namespace Checkouts

/-- The world a reader and the writer stand in. -/
def world (lower : Text → Text) (checkouts : Checkouts) (registry : Registry) (base : Disk)
    (cwd : Place) : World :=
  ⟨registry, checkouts.disk lower base, cwd⟩

theorem topLevel_spec (h : checkouts.topLevel place = some top) :
    top ∈ place.tails ∧ checkouts.topLevel top = some top := by
  have hcheckout := List.find?_some h
  have hin := List.mem_of_find?_eq_some h
  refine ⟨hin, ?_⟩
  cases top with
  | nil => simp only [topLevel, List.tails, List.find?_cons, hcheckout]
  | cons name rest => simp only [topLevel, List.tails_cons, List.find?_cons, hcheckout]

theorem remoteOf_top (h : checkouts.topLevel place = some top) :
    checkouts.remoteOf lower top = checkouts.remoteOf lower place := by
  unfold remoteOf
  rw [h, (topLevel_spec h).2]

theorem resolve_eq (names : Place) :
    (checkouts.world lower registry base cwd).resolve ⟨true, names⟩ = ⟨true, names⟩ := by
  have hreal : (checkouts.world lower registry base cwd).resolveNames true names = some names := by
    unfold World.resolveNames
    rfl
  unfold World.resolve
  rw [hreal]

end Checkouts

/-- The reader's walk stops at the nearest recorded place, and asks for the repository where there is
none. -/
theorem projectContaining_eq :
    (checkouts.world lower registry base cwd).projectContaining ⟨true, place⟩ =
      match nearest registry place with
      | some directory =>
        (registry.findByRoot ⟨true, directory⟩).map (World.here · ⟨true, directory⟩)
      | none => do
        let remote ← checkouts.remoteOf lower place
        let project ← registry.findByRemote remote
        return World.here project (((checkouts.topLevel place).map fun top ↦
          (⟨true, top⟩ : Path)).getD ⟨true, place⟩) := by
  have hwalk : ∀ directories : List Place,
      (directories.map fun names ↦ ({ absolute := true, names } : Path)).findSome?
          (fun directory ↦ (registry.findByRoot directory).map (World.here · directory)) =
        (directories.find? fun directory ↦
          (registry.findByRoot ⟨true, directory⟩).isSome).bind fun directory ↦
            (registry.findByRoot ⟨true, directory⟩).map (World.here · ⟨true, directory⟩) := by
    intro directories
    induction directories with
    | nil => rfl
    | cons directory rest ih =>
      rw [List.map_cons, List.findSome?_cons, List.find?_cons]
      cases hrow : registry.findByRoot ⟨true, directory⟩ with
      | some project => simp [hrow]
      | none => simpa using ih
  have hancestors : (Sweep.Path.mk true place).ancestors =
      place.tails.map fun names ↦ ({ absolute := true, names } : Path) := rfl
  unfold World.projectContaining
  have hregistry : (checkouts.world lower registry base cwd).registry = registry := rfl
  rw [hregistry, hancestors, hwalk]
  unfold nearest
  cases hfound : place.tails.find? fun directory ↦
      (registry.findByRoot ⟨true, directory⟩).isSome with
  | none => rfl
  | some directory =>
    have hrecorded : (registry.findByRoot ⟨true, directory⟩).isSome = true :=
      List.find?_some (p := fun directory ↦ (registry.findByRoot ⟨true, directory⟩).isSome) hfound
    obtain ⟨project, hproject⟩ := Option.isSome_iff_exists.mp hrecorded
    simp only [Option.bind_some, hproject, Option.map_some]

/-- What the writer answers at the top of a checkout. -/
theorem ensureProject_eq (h : checkouts.topLevel place = some top) :
    ensureProject ulids (checkouts.world lower registry base cwd) ⟨true, top⟩ =
      match projectAt (checkouts.world lower registry base cwd) ⟨true, top⟩ with
      | some found =>
        match checkouts.remoteOf lower place, found.remoteUrl with
        | some remote, none => (setRemoteUrl registry found.id remote).map fun registry' ↦
            (World.here { found with remoteUrl := some remote } ⟨true, top⟩, registry')
        | _, _ => .ok (World.here found ⟨true, top⟩, registry)
      | none =>
        (insert registry ⟨ulids.next registry.projects.keys, nameOf ⟨true, top⟩, ⟨true, top⟩,
          checkouts.remoteOf lower place⟩).map fun registry' ↦
            (World.here ⟨ulids.next registry.projects.keys, nameOf ⟨true, top⟩, ⟨true, top⟩,
              checkouts.remoteOf lower place⟩ ⟨true, top⟩, registry') := by
  have hremote : (checkouts.world lower registry base cwd).disk.remoteOf
      ((checkouts.world lower registry base cwd).locate ⟨true, top⟩) =
        checkouts.remoteOf lower place := Checkouts.remoteOf_top h
  have hregistry : (checkouts.world lower registry base cwd).registry = registry := rfl
  unfold ensureProject
  simp only [Checkouts.resolve_eq, hremote, find, hregistry]
  cases hfound : projectAt (checkouts.world lower registry base cwd) ⟨true, top⟩ with
  | none =>
    simp only [Bind.bind, Except.bind, pure, Except.pure, Except.map]
  | some found =>
    cases hurl : checkouts.remoteOf lower place with
    | none => rfl
    | some remote =>
      cases hhas : found.remoteUrl with
      | some url =>
        simp only [hhas]
        rfl
      | none =>
        simp only [hhas, Bind.bind, Except.bind, pure, Except.pure, Except.map]
        cases setRemoteUrl registry found.id remote <;> rfl

theorem of_map_eq_ok {α β : Type} {x : Except Error α} {f : α → β} {b : β}
    (h : x.map f = .ok b) : ∃ a, x = .ok a ∧ f a = b := by
  cases x with
  | error why => cases h
  | ok a => exact ⟨a, rfl, Except.ok.inj h⟩

/-- Assumes: a row without a remote. It is given one exactly when no other row carries that one. -/
theorem setRemoteUrl_ok_iff {project : Project} (hproject : project ∈ registry.projects.values)
    (hnone : project.remoteUrl = none) (url : String) :
    (∃ registry', setRemoteUrl registry project.id url = .ok registry') ↔
      registry.findByRemote url = none := by
  have hrow : (registry.projects.get? project.id).any (·.remoteUrl = none) = true := by
    rw [Registry.get?_projects_of_mem hproject]
    exact decide_eq_true hnone
  unfold setRemoteUrl
  cases hfound : registry.findByRemote url with
  | none => simp
  | some other => simp [hrow]

/-- Assumes: a root no project is recorded at and a remote, if any, that no row carries. A new row is
recorded. -/
theorem insert_ok {name : String} {root : Path} {remote : Option String}
    (hroot : registry.findByRoot root = none)
    (hremote : ∀ url, remote = some url → registry.findByRemote url = none) :
    registry.projects.get? (ulids.next registry.projects.keys) = none ∧
      ∃ registry', insert registry ⟨ulids.next registry.projects.keys, name, root, remote⟩ =
        .ok registry' := by
  have hfresh : registry.projects.get? (ulids.next registry.projects.keys) = none := by
    by_contra hin
    exact ulids.fresh registry.projects.keys (Table.mem_keys_iff.mpr hin)
  refine ⟨hfresh, ?_⟩
  unfold insert
  rw [dif_pos]
  · exact ⟨_, rfl⟩
  · refine ⟨hfresh, fun p hp hsame ↦ ?_, ?_⟩
    · have hnot := List.find?_eq_none.mp hroot p hp
      exact hnot (decide_eq_true hsame)
    · cases remote with
      | none => rfl
      | some url => simp [hremote url rfl]

/-- Reading from a directory of a checkout and writing in that checkout answer with one project
exactly when no project is recorded between the two but at its top, or above it while none is there,
and the row recorded at the top can be given its remote. -/
theorem one_answer_iff (ulids : Ulids) (lower : Text → Text) (checkouts : Checkouts)
    (registry : Registry) (base : Disk) (cwd place : Place) :
    (∀ top, checkouts.topLevel place = some top →
      OneAnswer registry
        ((checkouts.world lower registry base cwd).projectContaining ⟨true, place⟩)
        (ensureProject ulids (checkouts.world lower registry base cwd) ⟨true, top⟩)) ↔
    ∀ top, checkouts.topLevel place = some top →
      (∀ directory, nearest registry place = some directory → directory = top) ∧
        Fillable registry ⟨true, top⟩ (checkouts.remoteOf lower place) := by
  refine forall_congr' fun top ↦ forall_congr' fun htop ↦ ?_
  rw [projectContaining_eq, ensureProject_eq htop]
  have hremote : (checkouts.world lower registry base cwd).disk.remoteOf
      ((checkouts.world lower registry base cwd).locate ⟨true, top⟩) =
        checkouts.remoteOf lower place := Checkouts.remoteOf_top htop
  have hregistry : (checkouts.world lower registry base cwd).registry = registry := rfl
  have hproject : projectAt (checkouts.world lower registry base cwd) ⟨true, top⟩ =
      match registry.findByRoot ⟨true, top⟩ with
      | some found => some found
      | none => (checkouts.remoteOf lower place).bind registry.findByRemote := by
    unfold projectAt
    rw [hregistry, hremote]
  rw [hproject]
  cases hnearest : nearest registry place with
  | some directory =>
    have hrecorded : (registry.findByRoot ⟨true, directory⟩).isSome = true :=
      List.find?_some (p := fun directory ↦ (registry.findByRoot ⟨true, directory⟩).isSome)
        hnearest
    obtain ⟨row, hrow⟩ := Option.isSome_iff_exists.mp hrecorded
    have hmem : row ∈ registry.projects.values := List.mem_of_find?_eq_some hrow
    simp only [hrow, Option.map_some, Option.some.injEq, forall_eq']
    constructor
    · rintro ⟨ensured, registry', hok, -, hroot⟩
      have hplace : ensured.root = ⟨true, top⟩ := by
        split at hok
        · split at hok
          · obtain ⟨_, _, heq⟩ := of_map_eq_ok hok
            rw [← (Prod.mk.inj heq).1]
            rfl
          · rw [← (Prod.mk.inj (Except.ok.inj hok)).1]
            rfl
        · obtain ⟨_, _, heq⟩ := of_map_eq_ok hok
          rw [← (Prod.mk.inj heq).1]
          rfl
      obtain rfl : directory = top := congrArg Path.names (hroot.symm.trans hplace)
      refine ⟨rfl, fun project hproject hnone url hurl ↦ ?_⟩
      obtain rfl : row = project := Option.some.inj (hrow.symm.trans hproject)
      simp only [hrow, hurl, hnone] at hok
      refine (setRemoteUrl_ok_iff hmem hnone url).mp ?_
      obtain ⟨registry'', hset, _⟩ := of_map_eq_ok hok
      exact ⟨registry'', hset⟩
    · rintro ⟨rfl, hfillable⟩
      rw [hrow]
      cases hurl : checkouts.remoteOf lower place with
      | none => exact ⟨_, _, rfl, rfl, rfl⟩
      | some url =>
        cases hhas : row.remoteUrl with
        | some other =>
          simp only [hhas]
          exact ⟨_, _, rfl, rfl, rfl⟩
        | none =>
          obtain ⟨registry', hset⟩ := (setRemoteUrl_ok_iff hmem hhas url).mpr
            (hfillable row hrow hhas url hurl)
          simp only [hhas, hset]
          exact ⟨_, _, rfl, rfl, rfl⟩
  | none =>
    have hroot : registry.findByRoot ⟨true, top⟩ = none := by
      have hnone := List.find?_eq_none.mp hnearest top (Checkouts.topLevel_spec htop).1
      simpa using hnone
    have hright : (∀ directory, (none : Option Place) = some directory → directory = top) ∧
        Fillable registry ⟨true, top⟩ (checkouts.remoteOf lower place) := by
      refine ⟨fun directory h ↦ absurd h.symm (Option.some_ne_none directory), fun project hproject ↦ ?_⟩
      exact absurd (hroot.symm.trans hproject) (Option.some_ne_none project).symm
    refine iff_of_true ?_ hright
    simp only [hroot, htop, Option.map_some, Option.getD_some]
    cases hurl : checkouts.remoteOf lower place with
    | none =>
      obtain ⟨hfresh, registry', hinsert⟩ := @insert_ok ulids registry
        (nameOf ⟨true, top⟩) _ none hroot (fun _ h ↦ by cases h)
      simp only [Option.bind_none, hinsert]
      exact ⟨_, _, rfl, hfresh⟩
    | some url =>
      cases hfound : registry.findByRemote url with
      | none =>
        obtain ⟨hfresh, registry', hinsert⟩ := @insert_ok ulids registry
          (nameOf ⟨true, top⟩) _ (some url) hroot
          (fun other h ↦ by rw [← Option.some.inj h, hfound])
        simp only [Option.bind_eq_bind, Option.bind_some, Option.bind_none, hfound, hinsert]
        exact ⟨_, _, rfl, hfresh⟩
      | some found =>
        have hcarries : found.remoteUrl = some url := by simpa using List.find?_some hfound
        simp only [Option.bind_eq_bind, Option.bind_some, hfound, hcarries]
        exact ⟨_, _, rfl, rfl, rfl⟩

/-- A library checked out inside the checkout of an application. Neither has an `origin`. -/
def vendored : Checkouts where
  origin place :=
    if place = ["app", "work"] ∨ place = ["lib", "vendor", "app", "work"] then some none else none

/-- A registry with the application. -/
def application : Registry where
  projects := ⟨[("P1", ⟨"P1", "app", ⟨true, ["app", "work"]⟩, none⟩)], List.pairwise_singleton _ _⟩
  units := ∅
  environments := ∅
  projects_keyed := by simp
  units_keyed := Registry.sole.units_keyed
  environments_keyed := Registry.sole.environments_keyed
  root_unique := by simp [Table.values]
  unit_project := by simp
  unit_slug := Registry.sole.unit_slug
  environment_attempt := Registry.sole.environment_attempt

/-- A disk that answers nothing of its own. -/
def blank : Disk where
  isDir _ := true
  hasManifest _ := false
  marker _ := .ok none
  canonicalize := some
  remoteOf _ := none
  topLevel _ := none
  trashRetentionDays _ := none

/-- Identifiers each longer than the ones before. -/
def lengthening : Ulids where
  next ids := String.ofList (List.replicate ((ids.map String.length).foldr max 0 + 1) '0')
  fresh ids hin := by
    have hle : ∀ (ids : List String), ∀ id ∈ ids, id.length ≤ (ids.map String.length).foldr max 0 := by
      intro ids id hid
      induction ids with
      | nil => cases hid
      | cons first rest ih =>
        rcases List.mem_cons.mp hid with rfl | hid
        · exact Nat.le_max_left _ _
        · exact Nat.le_trans (ih hid) (Nat.le_max_right _ _)
    have hlength := hle ids _ hin
    rw [String.length_ofList, List.length_replicate] at hlength
    exact Nat.not_succ_le_self _ hlength

/-- In the sources of the library a reader answers with the application, at the top of that, and the
writer records the library. -/
theorem vendored_two_answers :
    vendored.topLevel ["src", "lib", "vendor", "app", "work"] =
      some ["lib", "vendor", "app", "work"] ∧
    ((vendored.world id application blank []).projectContaining
      ⟨true, ["src", "lib", "vendor", "app", "work"]⟩).map (·.id) = some "P1" ∧
    (∀ ensured registry', ensureProject lengthening (vendored.world id application blank [])
        ⟨true, ["lib", "vendor", "app", "work"]⟩ = .ok (ensured, registry') →
      ensured.id = "000") ∧
    ¬OneAnswer application
      ((vendored.world id application blank []).projectContaining
        ⟨true, ["src", "lib", "vendor", "app", "work"]⟩)
      (ensureProject lengthening (vendored.world id application blank [])
        ⟨true, ["lib", "vendor", "app", "work"]⟩) := by
  have htop : vendored.topLevel ["src", "lib", "vendor", "app", "work"] =
      some ["lib", "vendor", "app", "work"] := by decide
  have hreading : (vendored.world id application blank []).projectContaining
      ⟨true, ["src", "lib", "vendor", "app", "work"]⟩ =
        some ⟨"P1", "app", ⟨true, ["app", "work"]⟩, none⟩ := by decide
  have hwriting : ∀ ensured registry', ensureProject lengthening
      (vendored.world id application blank []) ⟨true, ["lib", "vendor", "app", "work"]⟩ =
        .ok (ensured, registry') → ensured.id = "000" := by
    intro ensured registry' hok
    rw [ensureProject_eq htop] at hok
    have hnone : projectAt (vendored.world id application blank [])
        ⟨true, ["lib", "vendor", "app", "work"]⟩ = none := by decide
    simp only [hnone] at hok
    obtain ⟨_, _, heq⟩ := of_map_eq_ok hok
    rw [← (Prod.mk.inj heq).1]
    decide
  refine ⟨htop, by rw [hreading]; rfl, hwriting, ?_⟩
  rw [hreading]
  rintro ⟨ensured, registry', hok, hid, _⟩
  rw [hwriting ensured registry' hok] at hid
  exact absurd hid (by decide)

end Nodal.Identity
