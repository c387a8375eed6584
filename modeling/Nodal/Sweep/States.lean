import Nodal.Runtime.Listing
import Nodal.Sweep.Archived
import Nodal.Sweep.Moves

/-!
# When a unit is recorded as merged

`lifecycle/states.rs`: a unit whose work has landed is recorded as merged by the commands that list the
units. Whether it has landed is read from what its home has checked out, and whether it is out there from
the branch the registry names, later and by that name.

So the record is of the unit's own branch exactly where, whenever both readings are favourable, the home
was on that branch and the name still names the commit it was read at (`settle_own_iff`).
-/

set_option autoImplicit false

namespace Nodal.States

open Git Git.Checkout Foundation Sweep
open Locks (UnitId Timestamp)

/-! ### The rows -/

/-- What is at a home. -/
structure Home where
  checkout : Checkout
  worktree : Worktree

/-- A unit's home, as a list finds it: where it is, what is there, and the revisions its branch is
measured against. -/
structure Surveyed where
  path : Sweep.Path
  found : Home
  candidates : List RefName

/-- One unit of a list: its row, and its home. -/
structure Listed where
  id : UnitId
  slug : Slug
  branch : RefName
  status : UnitStatus
  home : Option Surveyed

/-- One row of a list. -/
structure Row where
  id : UnitId
  slug : Slug
  branch : RefName
  status : UnitStatus
  environment : Option Sweep.Path
  work : Option Listing.Work

/-- The row a list has of a unit. A home Git could not answer for has no work. -/
def Listed.row (listed : Listed) : Row where
  id := listed.id
  slug := listed.slug
  branch := listed.branch
  status := listed.status
  environment := listed.home.map Surveyed.path
  work := listed.home.bind fun home ↦
    (Listing.work home.found.checkout home.found.worktree home.candidates).toOption

/-! ### The transition -/

/-- What a home's own record of its pushes has to say about one branch. -/
structure OnRemote where
  remotes : List String
  seenOnRemote : Bool

/-- Whether the branch has work of its own that the base has taken. -/
def hasLanded (integration : Integration) (divergence : Divergence) : Bool :=
  integration.isIntegrated && 0 < divergence.ahead

/-- Whether the unit's work has landed somewhere other people see. -/
def isMerged (status : UnitStatus) (integration : Integration) (divergence : Divergence)
    (outThere : OnRemote) : Bool :=
  (status = .opened ∨ status = .review) && hasLanded integration divergence &&
    outThere.remotes ≠ [] && outThere.seenOnRemote

/-- What a home's tracking refs have to say of a branch. -/
def outThere (home : Home) (branch : RefName) : Except Failure OnRemote := do
  let remotes ← home.worktree.ask .remote home.checkout.remotes
  if remotes = [] then return ⟨remotes, false⟩
  let seen ← home.worktree.ask .trackingTips home.checkout.seenOnRemotes
  let kept ← home.worktree.ask .countOutside
    (home.checkout.countOutside (home.checkout.resolve branch) seen)
  return ⟨remotes, kept = 0⟩

/-- Why a row could not be settled. -/
inductive Error
  | git (failure : Failure)
  | storeConflict

/-- Ask of one row and write it down, answering whether it happened. -/
def flip (homes : Sweep.Path → Home) (now : Timestamp) (registry : Registry) (row : Row) :
    Except Error Bool × Registry :=
  match row.work.filter fun work ↦ hasLanded work.integration work.divergence, row.environment with
  | some work, some home =>
    match outThere (homes home) row.branch with
    | .error failure => (.error (.git failure), registry)
    | .ok outThere =>
      if isMerged row.status work.integration work.divergence outThere then
        match registry.updateStatus row.id .merged now with
        | some (found, registry) => (.ok found, registry)
        | none => (.error .storeConflict, registry)
      else (.ok false, registry)
  | _, _ => (.ok false, registry)

/-- Record every row whose work has landed as merged, and show it so. -/
def settle (homes : Sweep.Path → Home) (now : Timestamp) :
    Registry → List Row → Registry × List Row × List (Slug × Error)
  | registry, [] => (registry, [], [])
  | registry, row :: rows =>
    let (answer, registry) := flip homes now registry row
    let (registry, settled, notes) := settle homes now registry rows
    match answer with
    | .ok true => (registry, { row with status := .merged } :: settled, notes)
    | .ok false => (registry, row :: settled, notes)
    | .error why => (registry, row :: settled, (row.slug, why) :: notes)

/-! ### Whose branch it is recorded of -/

/-- The branch of a unit. -/
def Listed.head (listed : Listed) : RefName := HEADS ++ listed.branch

/-- Both readings are of the unit's own branch: the home had it checked out, and the name it was asked
for later names the commit it was at. -/
structure Listed.ReadOfOwn (listed : Listed) (homes : Sweep.Path → Home) (home : Surveyed) (tip : Oid) :
    Prop where
  out : home.found.worktree.head = .symbolic listed.head
  surveyed : home.found.checkout.ref listed.head = some tip
  stays : (homes home.path).checkout.ref listed.head = some tip
  named : (homes home.path).checkout.resolve listed.branch = some tip

/-- The unit's own branch has landed: it has a commit its base does not, to merge it changes no file, and
a tracking ref of the home reaches every commit of it. -/
structure Listed.Landed (listed : Listed) (homes : Sweep.Path → Home) (home : Surveyed) (tip : Oid) :
    Prop where
  own : listed.ReadOfOwn homes home tip
  taken : ∃ base ∈ home.candidates, ∃ target, home.found.checkout.resolve base = some target ∧
    (∃ commit ∈ home.found.checkout.reach [tip], commit ∉ home.found.checkout.reach [target]) ∧
    home.found.checkout.merge target tip = .clean (home.found.checkout.tree target)
  seen : ∀ commit ∈ (homes home.path).checkout.reach [tip], ∃ ref ∈ (homes home.path).checkout.refs,
    startsWith TRACKING ref.name = true ∧ commit ∈ (homes home.path).checkout.reach [ref.oid]

/-- Both readings of a unit are favourable: what its home had checked out was ahead of a base that has
every change of it, and the tracking refs reach every commit of what its branch's name names. -/
structure Listed.Favourable (listed : Listed) (homes : Sweep.Path → Home) (home : Surveyed) : Prop where
  live : listed.status = .opened ∨ listed.status = .review
  surveyed : ∃ work, Listing.work home.found.checkout home.found.worktree home.candidates = .ok work ∧
    work.integration.isIntegrated = true ∧ 0 < work.divergence.ahead
  answered : (homes home.path).worktree.fails .remote = none ∧
    (homes home.path).worktree.fails .trackingTips = none ∧
    (homes home.path).worktree.fails .countOutside = none
  remotes : (homes home.path).checkout.remotes ≠ []
  seen : ∀ commit ∈ (homes home.path).checkout.reach
      ((homes home.path).checkout.resolve listed.branch).toList,
    commit ∈ (homes home.path).checkout.reach (homes home.path).checkout.seenOnRemotes

/-- Units are recorded as merged of their own branches. -/
structure OfOwn (homes : Sweep.Path → Home) (now : Timestamp) (registry : Registry)
    (units : List Listed) : Prop where
  /-- A row that is shown as merged, and was not, is of a unit whose own branch has landed. -/
  shown : ∀ pair ∈ units.zip (settle homes now registry (units.map Listed.row)).2.1,
    pair.1.status ≠ .merged → pair.2.status = .merged →
      ∃ home tip, pair.1.home = some home ∧ pair.1.Landed homes home tip
  /-- The state of no other unit is written. -/
  recorded : ∀ id, (settle homes now registry (units.map Listed.row)).1.statusOf id ≠
    registry.statusOf id → ∃ listed ∈ units, listed.id = id ∧
      ∃ home tip, listed.home = some home ∧ listed.Landed homes home tip

variable {homes : Sweep.Path → Home} {now : Timestamp} {registry registry' : Registry} {row : Row}
  {listed : Listed} {home : Home} {branch : RefName} {surveyed : Surveyed} {tip : Oid}

/-! ### One row -/

/-- A branch is out there where the home names a remote, and its tracking refs reach every commit of
what the name names. -/
theorem outThere_iff : (∃ answer, outThere home branch = .ok answer ∧ answer.remotes ≠ [] ∧
      answer.seenOnRemote = true) ↔
    home.worktree.fails .remote = none ∧ home.worktree.fails .trackingTips = none ∧
      home.worktree.fails .countOutside = none ∧ home.checkout.remotes ≠ [] ∧
      ∀ commit ∈ home.checkout.reach (home.checkout.resolve branch).toList,
        commit ∈ home.checkout.reach home.checkout.seenOnRemotes := by
  constructor
  · rintro ⟨answer, hanswer, hremotes, hseen⟩
    obtain ⟨remotes, hasked, hanswer⟩ := bind_eq_ok hanswer
    obtain ⟨hremote, rfl⟩ := ask_eq_ok_iff.mp hasked
    by_cases hnone : home.checkout.remotes = []
    · rw [if_pos hnone] at hanswer
      cases hanswer
      exact absurd hnone hremotes
    rw [if_neg hnone] at hanswer
    obtain ⟨seen, hasked, hanswer⟩ := bind_eq_ok hanswer
    obtain ⟨htips, rfl⟩ := ask_eq_ok_iff.mp hasked
    obtain ⟨kept, hasked, hanswer⟩ := bind_eq_ok hanswer
    obtain ⟨hkept, rfl⟩ := ask_eq_ok_iff.mp hasked
    cases hanswer
    exact ⟨hremote, htips, hkept, hnone, countOutside_eq_zero_iff.mp (of_decide_eq_true hseen)⟩
  · rintro ⟨hremote, htips, hkept, hremotes, hseen⟩
    refine ⟨⟨home.checkout.remotes, true⟩, ?_, hremotes, rfl⟩
    have hzero := countOutside_eq_zero_iff.mpr hseen
    simp [outThere, Worktree.ask, hremote, htips, hkept, bind, Except.bind, pure, Except.pure,
      hremotes, hzero]

/-- A row is flipped where both readings are favourable, and the registry takes it. -/
theorem flip_ok_true_iff : (flip homes now registry row).1 = .ok true ↔
    (∃ work path answer, row.work = some work ∧ row.environment = some path ∧
      outThere (homes path) row.branch = .ok answer ∧
      isMerged row.status work.integration work.divergence answer = true) ∧
      ∃ registry', registry.updateStatus row.id .merged now = some (true, registry') := by
  unfold flip
  constructor
  · intro h
    split at h
    · next work path hwork hpath =>
      split at h
      · cases h
      · next answer hanswer =>
        split at h
        · next hmerged =>
          split at h
          · next found registry' hupdate =>
            cases h
            obtain ⟨hwork, -⟩ := Option.filter_eq_some_iff.mp hwork
            exact ⟨⟨work, path, answer, hwork, hpath, hanswer, hmerged⟩, registry', hupdate⟩
          · cases h
        · cases h
    · cases h
  · rintro ⟨⟨work, path, answer, hwork, hpath, hanswer, hmerged⟩, registry', hupdate⟩
    have hlanded : hasLanded work.integration work.divergence = true := by
      simp only [isMerged, Bool.and_eq_true] at hmerged
      exact hmerged.1.1.2
    have hfilter : row.work.filter (fun work ↦ hasLanded work.integration work.divergence) =
        some work := Option.filter_eq_some_iff.mpr ⟨hwork, hlanded⟩
    simp only [hfilter, hpath, hanswer, hmerged, hupdate, if_true]

/-- A unit's row is flipped where both readings are favourable, and the registry takes it. -/
theorem flip_row_iff : (flip homes now registry listed.row).1 = .ok true ↔
    (∃ home, listed.home = some home ∧ listed.Favourable homes home) ∧
      ∃ registry', registry.updateStatus listed.id .merged now = some (true, registry') := by
  rw [flip_ok_true_iff]
  refine and_congr_left fun _ ↦ ?_
  constructor
  · rintro ⟨work, path, answer, hwork, hpath, hanswer, hmerged⟩
    obtain ⟨home, hhome, hwork⟩ := Option.bind_eq_some_iff.mp hwork
    obtain rfl : home.path = path := by
      rw [Listed.row, hhome] at hpath
      exact Option.some.inj hpath
    simp only [isMerged, hasLanded, Bool.and_eq_true, decide_eq_true_eq] at hmerged
    obtain ⟨⟨⟨hlive, hintegrated, hahead⟩, hremotes⟩, hseen⟩ := hmerged
    obtain ⟨hremote, htips, hkept, hnamed, hreached⟩ :=
      outThere_iff.mp ⟨answer, hanswer, hremotes, hseen⟩
    have hsurvey : Listing.work home.found.checkout home.found.worktree home.candidates = .ok work := by
      cases h : Listing.work home.found.checkout home.found.worktree home.candidates with
      | error failure => simp [h, Except.toOption] at hwork
      | ok work' => simpa [h, Except.toOption] using hwork
    exact ⟨home, hhome, hlive, ⟨work, hsurvey, hintegrated, hahead⟩, ⟨hremote, htips, hkept⟩, hnamed,
      hreached⟩
  · rintro ⟨home, hhome, hfavourable⟩
    obtain ⟨work, hwork, hintegrated, hahead⟩ := hfavourable.surveyed
    obtain ⟨hremote, htips, hkept⟩ := hfavourable.answered
    obtain ⟨answer, hanswer, hremotes, hseen⟩ :=
      outThere_iff.mpr ⟨hremote, htips, hkept, hfavourable.remotes, hfavourable.seen⟩
    refine ⟨work, home.path, answer, ?_, ?_, hanswer, ?_⟩
    · simp [Listed.row, hhome, hwork, Except.toOption]
    · simp [Listed.row, hhome]
    · simp only [isMerged, hasLanded, Bool.and_eq_true, decide_eq_true_eq]
      exact ⟨⟨⟨hfavourable.live, hintegrated, hahead⟩, hremotes⟩, hseen⟩

/-- Assumes: two favourable readings, both of the unit's own branch. The branch has landed. -/
theorem landed_of_readOfOwn (hfavourable : listed.Favourable homes surveyed)
    (hown : listed.ReadOfOwn homes surveyed tip) : listed.Landed homes surveyed tip := by
  refine ⟨hown, ?_, ?_⟩
  · obtain ⟨work, hwork, hintegrated, hahead⟩ := hfavourable.surveyed
    obtain ⟨base, hbase, standing, hstanding, hdivergence, hverdict⟩ := Listing.work_standing hwork
    rw [hverdict] at hintegrated
    rw [hdivergence] at hahead
    obtain ⟨target, head, htarget, hhead, hlanded⟩ := standing_landed hstanding hintegrated hahead
    have htip : surveyed.found.checkout.headCommit surveyed.found.worktree = some tip := by
      rw [headCommit, hown.out]
      exact hown.surveyed
    obtain rfl : tip = head := Option.some.inj (htip.symm.trans hhead)
    exact ⟨base, hbase, target, htarget, hlanded⟩
  · intro commit hcommit
    refine mem_reach_seenOnRemotes_iff.mp (hfavourable.seen commit ?_)
    rw [hown.named]
    exact hcommit

/-- What a flip leaves of the registry: all of it, or all but the state of the unit. -/
theorem flip_registry : (flip homes now registry row).2 = registry ∨
    ∃ registry', registry.updateStatus row.id .merged now = some (true, registry') ∧
      flip homes now registry row = (.ok true, registry') := by
  unfold flip
  split
  · split
    · exact .inl rfl
    · split
      · split
        · next found registry' hupdate =>
          cases found with
          | true => exact .inr ⟨registry', hupdate, rfl⟩
          | false => exact .inl (Registry.eq_of_updateStatus_false hupdate)
        · exact .inl rfl
      · exact .inl rfl
  · exact .inl rfl

/-! ### A list -/

/-- The rows of a list come out one by one, each merged where it was flipped. -/
theorem settle_cons {rows : List Row} : (settle homes now registry (row :: rows)).2.1 =
    (match (flip homes now registry row).1 with
      | .ok true => { row with status := .merged }
      | _ => row) :: (settle homes now (flip homes now registry row).2 rows).2.1 := by
  rw [settle]
  split
  next answer registry' hflip =>
    rw [hflip]
    match answer with
    | .ok true => rfl
    | .ok false => rfl
    | .error why => rfl

theorem settle_registry {rows : List Row} : (settle homes now registry (row :: rows)).1 =
    (settle homes now (flip homes now registry row).2 rows).1 := by
  rw [settle]
  split
  next answer registry' hflip =>
    rw [hflip]
    match answer with
    | .ok true => rfl
    | .ok false => rfl
    | .error why => rfl

/-- A row that comes out merged, and was not, was flipped over the registry as it then was. -/
theorem flipped_of_settled {units : List Listed} {pair : Listed × Row}
    (hpair : pair ∈ units.zip (settle homes now registry (units.map Listed.row)).2.1)
    (hbefore : pair.1.status ≠ .merged) (hafter : pair.2.status = .merged) :
    ∃ registry', (flip homes now registry' pair.1.row).1 = .ok true := by
  induction units generalizing registry with
  | nil => cases hpair
  | cons first units ih =>
    rw [List.map_cons, settle_cons, List.zip_cons_cons] at hpair
    rcases List.mem_cons.mp hpair with rfl | hpair
    · refine ⟨registry, ?_⟩
      split at hafter
      · next hflip => exact hflip
      · exact absurd hafter hbefore
    · exact ih hpair

/-- A unit whose state a settle wrote is of a row that was flipped. -/
theorem flipped_of_recorded {rows : List Row} {id : UnitId}
    (h : (settle homes now registry rows).1.statusOf id ≠ registry.statusOf id) :
    ∃ row ∈ rows, row.id = id ∧ ∃ registry', (flip homes now registry' row).1 = .ok true := by
  induction rows generalizing registry with
  | nil => exact absurd rfl h
  | cons row rows ih =>
    rw [settle_registry] at h
    by_cases hlater : (settle homes now (flip homes now registry row).2 rows).1.statusOf id =
        (flip homes now registry row).2.statusOf id
    · rw [hlater] at h
      rcases @flip_registry homes now registry row with heq | ⟨registry', hupdate, heq⟩
      · rw [heq] at h
        exact absurd rfl h
      · refine ⟨row, List.mem_cons_self, ?_, registry, by rw [heq]⟩
        by_contra hother
        rw [heq, Registry.statusOf_updateStatus hupdate, if_neg (Ne.symm hother)] at h
        exact h rfl
    · obtain ⟨later, hmem, hflipped⟩ := ih hlater
      exact ⟨later, List.mem_cons_of_mem row hmem, hflipped⟩

/-- The registry holds one unit and no other. -/
def Alone (registry : Registry) (id : UnitId) : Prop :=
  ∀ other, registry.statusOf other ≠ none ↔ other = id

/-- A registry of one unit. -/
def lone (id : UnitId) (now : Timestamp) : Registry where
  projects := Table.set ∅ "shop" ⟨"shop", "shop", ⟨true, ["shop"]⟩, none⟩
  units := Table.set ∅ id ⟨id, "shop", "fix", .opened, now⟩
  environments := ∅
  projects_keyed := Archived.shop.projects_keyed
  units_keyed := by simp [Table.set, EmptyCollection.emptyCollection, Table.empty]
  environments_keyed := Archived.shop.environments_keyed
  root_unique := Archived.shop.root_unique
  unit_project := by simp [Table.values, Table.set, EmptyCollection.emptyCollection, Table.empty,
    Table.get?]
  unit_slug := by simp [Table.values, Table.set, EmptyCollection.emptyCollection, Table.empty]
  environment_attempt := Archived.shop.environment_attempt

theorem alone_lone {id : UnitId} : Alone (lone id now) id := by
  intro other
  rw [Registry.statusOf, lone, Table.get?_set]
  split
  · next h => simp [h]
  · next h => simp [h]

/-- The registry takes the one unit it holds. -/
theorem updateStatus_of_alone {id : UnitId} (h : Alone registry id) :
    ∃ registry', registry.updateStatus id .merged now = some (true, registry') := by
  have hheld : registry.statusOf id ≠ none := (h id).mpr rfl
  cases hupdate : registry.updateStatus id .merged now with
  | none =>
    obtain ⟨-, unit, hunit, hholder⟩ := Registry.updateStatus_eq_none_iff.mp hupdate
    refine absurd (Registry.holder_eq_none_iff.mpr fun other hother _ _ _ ↦ ?_) hholder
    have hget := Registry.get?_units_of_mem hother
    have hother : other.id = id := (h other.id).mp (by simp [Registry.statusOf, hget])
    rw [hother, Registry.units_get?_id hunit]
  | some written =>
    obtain ⟨found, registry'⟩ := written
    obtain ⟨hfound, -⟩ := Registry.updateStatus_eq_ok hupdate
    have hsome : (registry.units.get? id).isSome = true := by
      rw [Option.isSome_iff_ne_none]
      intro hnone
      exact hheld (by simp [Registry.statusOf, hnone])
    exact ⟨registry', by rw [hfound, hsome]⟩

theorem alone_flip {id : UnitId} (h : Alone registry id) :
    Alone (flip homes now registry row).2 id := by
  intro other
  rw [← h other]
  rcases @flip_registry homes now registry row with heq | ⟨registry', hupdate, heq⟩
  · rw [heq]
  · rw [heq, Registry.statusOf_updateStatus hupdate]
    split
    · next hother => simp [hother]
    · rfl

/-- A row both of whose readings are favourable comes out merged, where the registry holds its unit. -/
theorem settled_of_favourable {units : List Listed} (hunit : listed ∈ units)
    (halone : Alone registry listed.id) (hhome : listed.home = some surveyed)
    (hfavourable : listed.Favourable homes surveyed) :
    ∃ pair ∈ units.zip (settle homes now registry (units.map Listed.row)).2.1,
      pair.1 = listed ∧ pair.2.status = .merged := by
  induction units generalizing registry with
  | nil => cases hunit
  | cons first units ih =>
    rw [List.map_cons, settle_cons, List.zip_cons_cons]
    rcases List.mem_cons.mp hunit with rfl | hunit
    · have hupdate : ∃ registry', registry.updateStatus listed.id .merged now = some (true, registry') :=
        updateStatus_of_alone halone
      have hflip : (flip homes now registry listed.row).1 = .ok true :=
        flip_row_iff.mpr ⟨⟨surveyed, hhome, hfavourable⟩, hupdate⟩
      rw [hflip]
      exact ⟨_, List.mem_cons_self, rfl, rfl⟩
    · obtain ⟨pair, hpair, hmerged⟩ := ih hunit (alone_flip halone)
      exact ⟨pair, List.mem_cons_of_mem _ hpair, hmerged⟩

/-- Units are recorded as merged of their own branches, whatever the registry holds, if and only if of
every unit both of whose readings are favourable both are of its branch. -/
theorem settle_own_iff {units : List Listed} : (∀ registry, OfOwn homes now registry units) ↔
    ∀ listed ∈ units, ∀ home, listed.home = some home → listed.Favourable homes home →
      ∃ tip, listed.ReadOfOwn homes home tip := by
  constructor
  · intro hown listed hlisted home hhome hfavourable
    obtain ⟨pair, hpair, rfl, hmerged⟩ :=
      settled_of_favourable hlisted alone_lone hhome hfavourable
    have hbefore : pair.1.status ≠ .merged := by
      rcases hfavourable.live with hlive | hlive
      all_goals
        rw [hlive]
        exact UnitStatus.noConfusion
    obtain ⟨home', tip, hhome', hlanded⟩ :=
      (hown (lone pair.1.id now)).shown pair hpair hbefore hmerged
    obtain rfl : home = home' := Option.some.inj (hhome.symm.trans hhome')
    exact ⟨tip, hlanded.own⟩
  · intro hown registry
    have hlands : ∀ listed ∈ units, (∃ registry', (flip homes now registry' listed.row).1 = .ok true) →
        ∃ home tip, listed.home = some home ∧ listed.Landed homes home tip := by
      rintro listed hlisted ⟨registry', hflip⟩
      obtain ⟨⟨home, hhome, hfavourable⟩, -⟩ := flip_row_iff.mp hflip
      obtain ⟨tip, hread⟩ := hown listed hlisted home hhome hfavourable
      exact ⟨home, tip, hhome, landed_of_readOfOwn hfavourable hread⟩
    constructor
    · intro pair hpair hbefore hafter
      exact hlands pair.1 (List.of_mem_zip hpair).1 (flipped_of_settled hpair hbefore hafter)
    · intro id hwritten
      obtain ⟨row, hrow, rfl, hflipped⟩ := flipped_of_recorded hwritten
      obtain ⟨listed, hlisted, rfl⟩ := List.mem_map.mp hrow
      exact ⟨listed, hlisted, rfl, hlands listed hlisted hflipped⟩

/-- A home with two branches on top of `main`, both pushed. The base has taken what is on `spike`, and not
what is on `fix`. -/
def forked : Checkout where
  parents := fun commit ↦ if commit = ⟨1⟩ then [] else [⟨1⟩]
  commits := [⟨3⟩, ⟨2⟩, ⟨1⟩]
  ordered := by decide
  tree := fun commit ↦ if commit = ⟨3⟩ then ⟨30⟩ else ⟨10⟩
  merge := fun _ head ↦ .clean (if head = ⟨3⟩ then ⟨30⟩ else ⟨10⟩)
  refs := [⟨["refs", "heads", "fix"], ⟨3⟩⟩, ⟨["refs", "heads", "spike"], ⟨2⟩⟩,
    ⟨["refs", "remotes", "origin", "fix"], ⟨3⟩⟩, ⟨["refs", "remotes", "origin", "main"], ⟨1⟩⟩,
    ⟨["refs", "remotes", "origin", "spike"], ⟨2⟩⟩]
  literal := fun _ ↦ none
  remotes := ["origin"]
  upstream := fun _ ↦ none

def spiked : Home := ⟨forked, ⟨.symbolic ["refs", "heads", "spike"], [], fun _ ↦ none⟩⟩

/-- The unit of `fix`, whose home has `spike` checked out. -/
def fix : Listed where
  id := "01J"
  slug := "fix"
  branch := ["fix"]
  status := .review
  home := some ⟨⟨true, ["fix", "homes"]⟩, spiked, [["origin", "main"]]⟩

/-- A unit is recorded as merged whose branch the base has not taken. -/
theorem other_branch_is_recorded : ((settle (fun _ ↦ spiked) ⟨0, by decide⟩ (lone "01J" ⟨0, by decide⟩)
      [fix.row]).1.statusOf "01J" = some .merged ∧ forked.merge ⟨1⟩ ⟨3⟩ ≠ .clean (forked.tree ⟨1⟩)) ∧
    ¬∀ registry, OfOwn (fun _ ↦ spiked) ⟨0, by decide⟩ registry [fix] := by
  have hrecorded : (settle (fun _ ↦ spiked) ⟨0, by decide⟩ (lone "01J" ⟨0, by decide⟩)
      [fix.row]).1.statusOf "01J" = some .merged := by decide +kernel
  have hmerge : forked.merge ⟨1⟩ ⟨3⟩ ≠ .clean (forked.tree ⟨1⟩) := by decide
  refine ⟨⟨hrecorded, hmerge⟩, fun hown ↦ ?_⟩
  have hchanged : (settle (fun _ ↦ spiked) ⟨0, by decide⟩ (lone "01J" ⟨0, by decide⟩)
      ([fix].map Listed.row)).1.statusOf "01J" ≠ (lone "01J" ⟨0, by decide⟩).statusOf "01J" := by
    decide +kernel
  obtain ⟨listed, hlisted, -, home, tip, hhome, hlanded⟩ := (hown _).recorded "01J" hchanged
  obtain rfl : listed = fix := List.mem_singleton.mp hlisted
  cases hhome
  exact absurd hlanded.own.out (by decide)

end Nodal.States
