import Nodal.Carry.Work
import Nodal.Git.Repository

/-!
# Carried work put into a home

`git/carry.rs`, the writing: the staged patch into the index and the working tree, the unstaged one
into the working tree, and then each untracked path copied as what it is. A patch is not applied where
its reverse would be, which is how one that is already there is meant to be recognised.

A patch whose reverse would apply to the very tree it starts from is taken for one that is there. So
the work is reproduced exactly where neither patch is such a patch (`carry_iff`).
-/

set_option autoImplicit false

namespace Nodal.Carry

open Foundation
open Nodal.Git (bind_eq_ok)

/-- The home as a carry finds it and leaves it. -/
structure Home where
  index : Tree
  work : Tree

/-! ### The patches -/

/-- How one of the two patches is applied, and how it is recognised as already applied. -/
structure Application where
  /-- Whether `git apply` is given `--index`. -/
  index : Bool
  /-- Whether the check is given `--cached`. -/
  cached : Bool
  deriving DecidableEq, Repr

/-- What the checkout had staged: into the index and the working tree, recognised in the index. -/
def STAGED : Application := ⟨true, true⟩

/-- What it held over the index: into the working tree, recognised there. -/
def UNSTAGED : Application := ⟨false, false⟩

/-- Whether `git apply --reverse --check` takes a patch. -/
def reverses (home : Home) (patch : Patch) (how : Application) : Bool :=
  Patch.accepts (if how.cached then home.index else home.work) (Patch.reverse patch)

/-- Whether `git apply` takes a patch: with `--index`, into both trees, which agree where it reads. -/
def takes (home : Home) (patch : Patch) (how : Application) : Bool :=
  if how.index then Patch.accepts home.index patch && patch.all fun change ↦
    (match change.oldPath with
      | none => true
      | some path => decide (home.work path = home.index path)) &&
    Patch.makes home.work patch change
  else Patch.accepts home.work patch

/-- What `git apply` leaves. -/
def taken (git : Git) (home : Home) (patch : Patch) (how : Application) : Home where
  index := if how.index then Patch.apply git.elsewhere home.index patch else home.index
  work := Patch.apply git.elsewhere home.work patch

/-- Apply a patch, unless it is already applied. -/
def runApply (git : Git) (home : Home) (patch : Patch) (how : Application) : Except Error Home :=
  if patch = [] then .ok home
  else if reverses home patch how then .ok home
  else if takes home patch how then .ok (taken git home patch how)
  else .error .git

/-! ### The files -/

/-- Where a link leads. -/
def target (file : Patch.File String) : Option (List String) :=
  if file.mode = .symlink then some file.lines else none

/-- Whether two paths are the same file to carry. -/
def sameBytes (source destination : Option (Patch.File String)) : Bool :=
  match source, destination with
  | some here, some there =>
    if here.mode = .symlink ∨ there.mode = .symlink then decide (target here = target there)
    else decide (here.lines = there.lines)
  | _, _ => false

/-- Refuse every untracked path the home already holds with other content. -/
def refuseCollisions (untracked : List RelPath) (source destination : Tree) : Except Error Unit :=
  match untracked.find? fun path ↦
    (destination path).isSome && !sameBytes (source path) (destination path) with
  | some path => .error (.carryCollision path)
  | none => .ok ()

/-- What a path of the home is once the checkout's file was copied there: a link that is there is left
alone. -/
def placed (source destination : Option (Patch.File String)) : Option (Patch.File String) :=
  match source with
  | none => destination
  | some file => if file.mode = .symlink ∧ destination.isSome then destination else some file

/-- Copy one untracked path into the home, as what it is. -/
def place (io : RelPath → Option String) (source : Tree) (home : Home) (path : RelPath) :
    Except Error Home :=
  match io path, source path with
  | some why, _ => .error (.io path why)
  | none, none => .error (.io path "no such file")
  | none, some file => .ok ⟨home.index, fun other ↦
      if other = path then placed (some file) (home.work path) else home.work other⟩

/-- Copy each untracked path. -/
def placeAll (io : RelPath → Option String) (source : Tree) : Home → List RelPath → Except Error Home
  | home, [] => .ok home
  | home, path :: rest => do
    let home ← place io source home path
    placeAll io source home rest

/-- Put work into a home, and answer what was put there. -/
def reproduce (git : Git) (io : RelPath → Option String) (work : Work) (source : Tree) (home : Home) :
    Except Error (Home × Report) := do
  refuseCollisions work.untracked source home.work
  let home ← runApply git home work.staged STAGED
  let home ← runApply git home work.unstaged UNSTAGED
  let home ← placeAll io source home work.untracked
  return (home, work.report)

/-! ### What a carry is over -/

/-- The home is a clean checkout of what `HEAD` has. -/
structure CleanAt (home : Home) (head : Tree) : Prop where
  index : home.index = head
  work : ∀ path, head path ≠ none → home.work path = head path

/-- Nothing of the home's own stands where the work goes. -/
structure Unobstructed (checkout : Checkout) (untracked : List RelPath) (home : Home) : Prop where
  tracked : ∀ path, checkout.index path ≠ none → checkout.head path = none → home.work path = none
  untracked : ∀ path ∈ untracked,
    home.work path = none ∨ sameBytes (checkout.work path) (home.work path) = true

/-- What a status reading lists as untracked is there and not in the index. -/
def Lists (checkout : Checkout) (untracked : List RelPath) : Prop :=
  ∀ path ∈ untracked, checkout.index path = none ∧ checkout.work path ≠ none

/-- The home has what the checkout had, as the checkout had it. -/
structure Carried (checkout : Checkout) (untracked : List RelPath) (home : Home) : Prop where
  index : home.index = checkout.index
  tracked : ∀ path, checkout.index path ≠ none ∨ checkout.head path ≠ none ∧
    checkout.work path = none → home.work path = checkout.work path
  untracked : ∀ path ∈ untracked, sameBytes (checkout.work path) (home.work path) = true

/-- The work is reproduced, and reproducing it again changes nothing. -/
def Reproduced (git : Git) (io : RelPath → Option String) (checkout : Checkout) (work : Work)
    (home : Home) : Prop :=
  ∃ after report, reproduce git io work checkout.work home = .ok (after, report) ∧
    Carried checkout work.untracked after ∧
    reproduce git io work checkout.work after = .ok (after, report)

variable {git : Git} {io : RelPath → Option String} {checkout : Checkout} {work : Work}
  {home home' : Home} {source : Tree} {untracked : List RelPath} {path : RelPath}

/-! ### The copies -/

/-- A file is what it is. -/
theorem sameBytes_self {file : Option (Patch.File String)} (h : file ≠ none) :
    sameBytes file file = true := by
  cases file with
  | none => exact absurd rfl h
  | some file => simp [sameBytes]

/-- What was copied is the same file as the one it was copied from, where what was there is. -/
theorem sameBytes_placed {file destination : Option (Patch.File String)} (hfile : file ≠ none)
    (h : destination = none ∨ sameBytes file destination = true) :
    sameBytes file (placed file destination) = true := by
  obtain ⟨here, rfl⟩ := Option.ne_none_iff_exists'.mp hfile
  unfold placed
  dsimp only
  split
  · next hlink =>
    rcases h with rfl | hsame
    · simp at hlink
    · exact hsame
  · exact sameBytes_self (by simp)

/-- Copying the same file twice is copying it once. -/
theorem placed_placed {file destination : Option (Patch.File String)} :
    placed file (placed file destination) = placed file destination := by
  unfold placed
  cases file with
  | none => rfl
  | some here =>
    cases destination with
    | none => by_cases hlink : here.mode = .symlink <;> simp [hlink]
    | some there => by_cases hlink : here.mode = .symlink <;> simp [hlink]

/-- What copying the untracked paths leaves. -/
theorem placeAll_eq_ok (h : placeAll io source home untracked = .ok home') :
    home'.index = home.index ∧ ∀ path, home'.work path =
      if path ∈ untracked then placed (source path) (home.work path) else home.work path := by
  induction untracked generalizing home with
  | nil =>
    cases h
    simp
  | cons first rest ih =>
    obtain ⟨next, hplace, h⟩ := bind_eq_ok h
    unfold place at hplace
    split at hplace
    · cases hplace
    · cases hplace
    · next file _ hfile =>
      cases hplace
      obtain ⟨hindex, hwork⟩ := ih h
      refine ⟨hindex, fun path ↦ ?_⟩
      rw [hwork path]
      by_cases hpath : path = first
      · subst hpath
        simp [hfile, placed_placed]
      · simp [hpath]

/-- Copying the untracked paths goes through where each is there and no file operation fails. -/
theorem placeAll_runs (hio : ∀ path ∈ untracked, io path = none)
    (hthere : ∀ path ∈ untracked, source path ≠ none) :
    ∃ after, placeAll io source home untracked = .ok after := by
  induction untracked generalizing home with
  | nil => exact ⟨home, rfl⟩
  | cons first rest ih =>
    obtain ⟨file, hfile⟩ := Option.ne_none_iff_exists'.mp (hthere first List.mem_cons_self)
    obtain ⟨after, hafter⟩ := ih (fun path hpath ↦ hio path (List.mem_cons_of_mem _ hpath))
      fun path hpath ↦ hthere path (List.mem_cons_of_mem _ hpath)
    refine ⟨after, ?_⟩
    rw [placeAll, place, hio first List.mem_cons_self, hfile]
    exact hafter

theorem refuseCollisions_eq_ok {destination : Tree} :
    refuseCollisions untracked source destination = .ok () ↔ ∀ path ∈ untracked,
      destination path = none ∨ sameBytes (source path) (destination path) = true := by
  have hnone : refuseCollisions untracked source destination = .ok () ↔
      (untracked.find? fun path ↦
        (destination path).isSome && !sameBytes (source path) (destination path)) = none := by
    unfold refuseCollisions
    split <;> simp [*]
  rw [hnone, List.find?_eq_none]
  refine forall₂_congr fun path _ ↦ ?_
  cases destination path <;> simp

/-! ### The two patches -/

/-- What a reading that was not refused holds, of a Git that prints the differences there are. -/
structure Reads (checkout : Checkout) (work : Work) : Prop where
  staged : Patch.Describes checkout.head checkout.index work.staged
  unstaged : Patch.Describes checkout.index checkout.tracked work.unstaged

/-- The work is not taken for work that is there: no patch that changes something would, read
backwards, be accepted by the tree it starts from. -/
def Told (checkout : Checkout) (work : Work) : Prop :=
  (work.staged = [] ∨ Patch.accepts checkout.head (Patch.reverse work.staged) = false) ∧
    (work.unstaged = [] ∨ Patch.accepts checkout.index (Patch.reverse work.unstaged) = false)

theorem tracked_eq {path : RelPath} (h : checkout.index path ≠ none) :
    checkout.tracked path = checkout.work path := by
  simp [Checkout.tracked, Option.isSome_iff_ne_none, h]

/-- The unstaged patch touches only what the index has. -/
theorem indexed_of_touched (h : Patch.Describes checkout.index checkout.tracked work.unstaged)
    (htouched : Patch.Touched work.unstaged path) : checkout.index path ≠ none := by
  obtain ⟨change, hchange, hpath | hpath⟩ := htouched
  · obtain ⟨⟨place, mode⟩, hside, rfl⟩ := Option.map_eq_some_iff.mp hpath
    obtain ⟨file, hfile, _⟩ := h.old change hchange place mode hside
    simp [hfile]
  · obtain ⟨⟨place, mode⟩, hside, rfl⟩ := Option.map_eq_some_iff.mp hpath
    obtain ⟨file, hfile, _⟩ := h.new change hchange place mode hside
    intro hnone
    simp [Checkout.tracked, hnone] at hfile

/-- The home after the staged patch: the index as the checkout has it, and the working tree with it
on every path that either has. -/
structure Staged (checkout : Checkout) (before home : Home) : Prop where
  index : home.index = checkout.index
  kept : ∀ path, checkout.index path ≠ none ∨ checkout.head path ≠ none →
    home.work path = checkout.index path
  beside : ∀ path, checkout.index path = none → checkout.head path = none →
    home.work path = before.work path

/-- With nothing of the home's own in its way, the staged patch is taken where it is not recognised,
and leaves the index as the checkout has it. -/
theorem runApply_staged (hreads : Patch.Describes checkout.head checkout.index work.staged)
    (hclean : CleanAt home checkout.head) (hfree : Unobstructed checkout work.untracked home)
    (htold : work.staged = [] ∨
      Patch.accepts checkout.head (Patch.reverse work.staged) = false) :
    ∃ after, runApply git home work.staged STAGED = .ok after ∧ Staged checkout home after := by
  have hwork (path : RelPath) (huntouched : ¬Patch.Touched work.staged path) :
      checkout.head path = checkout.index path := by
    by_contra hne
    exact huntouched (hreads.covers path hne)
  have hkeeps (path : RelPath) (huntouched : ¬Patch.Touched work.staged path)
      (hthere : checkout.index path ≠ none ∨ checkout.head path ≠ none) :
      home.work path = checkout.index path := by
    rw [← hwork path huntouched] at hthere ⊢
    exact hclean.work path (hthere.elim id id)
  by_cases hnil : work.staged = []
  · have huntouched (path : RelPath) : ¬Patch.Touched work.staged path := by
      simp [Patch.Touched, hnil]
    refine ⟨home, by simp [runApply, hnil], ⟨?_, fun path ↦ hkeeps path (huntouched path), ?_⟩⟩
    · rw [hclean.index]
      exact funext fun path ↦ hwork path (huntouched path)
    · exact fun _ _ _ ↦ rfl
  · have hrefused : reverses home work.staged STAGED = false := by
      simpa [reverses, STAGED, hclean.index] using htold.resolve_left hnil
    have hold (change : Foundation.Patch.Change RelPath String) (hchange : change ∈ work.staged)
        (path : RelPath) (hpath : change.oldPath = some path) :
        home.work path = checkout.head path := by
      obtain ⟨⟨place, mode⟩, hside, rfl⟩ := Option.map_eq_some_iff.mp hpath
      obtain ⟨file, hfile, _⟩ := hreads.old change hchange place mode hside
      exact hclean.work place (by simp [hfile])
    have hnew (change : Foundation.Patch.Change RelPath String) (hchange : change ∈ work.staged)
        (path : RelPath) (hpath : change.newPath = some path) : checkout.index path ≠ none := by
      obtain ⟨⟨place, mode⟩, hside, rfl⟩ := Option.map_eq_some_iff.mp hpath
      obtain ⟨file, hfile, _⟩ := hreads.new change hchange place mode hside
      simp [hfile]
    have hagree (path : RelPath) (htouched : Patch.Touched work.staged path) :
        home.work path = checkout.head path := by
      obtain ⟨change, hchange, hpath | hpath⟩ := htouched
      · exact hold change hchange path hpath
      · by_cases hhead : checkout.head path = none
        · rw [hhead]
          exact hfree.tracked path (hnew change hchange path hpath) hhead
        · exact hclean.work path hhead
    have htakes : takes home work.staged STAGED = true := by
      have hindex : Patch.accepts home.index work.staged = true :=
        Patch.accepts_of_describes hreads fun path _ ↦ by rw [hclean.index]
      have htree := Patch.accepts_of_describes hreads hagree
      simp only [takes, STAGED, if_true, hindex, Bool.true_and, List.all_eq_true]
      intro change hchange
      refine Bool.and_eq_true_iff.mpr ⟨?_, ?_⟩
      · cases hpath : change.oldPath with
        | none => rfl
        | some path => simp [hold change hchange path hpath, hclean.index]
      · exact (Bool.and_eq_true_iff.mp (List.all_eq_true.mp htree change hchange)).2
    have hindex (path : RelPath) :
        Patch.apply git.elsewhere home.index work.staged path = checkout.index path := by
      have hends := @Patch.apply_of_describes _ _ _ _ _ home.index _ path git.elsewhere _ hreads
        fun path _ ↦ by rw [hclean.index]
      by_cases htouched : Patch.Touched work.staged path
      · exact hends.1 htouched
      · rw [hends.2 htouched, hclean.index, hwork path htouched]
    have hends (path : RelPath) :=
      @Patch.apply_of_describes _ _ _ _ _ home.work _ path git.elsewhere _ hreads hagree
    refine ⟨taken git home work.staged STAGED, by simp [runApply, hnil, hrefused, htakes],
      ⟨funext hindex, fun path hthere ↦ ?_, fun path hindex hhead ↦ ?_⟩⟩
    · by_cases htouched : Patch.Touched work.staged path
      · exact (hends path).1 htouched
      · exact ((hends path).2 htouched).trans (hkeeps path htouched hthere)
    · refine (hends path).2 fun htouched ↦ ?_
      obtain ⟨change, hchange, hpath | hpath⟩ := htouched
      · obtain ⟨⟨place, mode⟩, hside, rfl⟩ := Option.map_eq_some_iff.mp hpath
        obtain ⟨file, hfile, _⟩ := hreads.old change hchange place mode hside
        simp [hhead] at hfile
      · exact hnew change hchange path hpath hindex

/-- The home after both patches. -/
structure Patched (checkout : Checkout) (before home : Home) : Prop where
  index : home.index = checkout.index
  kept : ∀ path, checkout.index path ≠ none → home.work path = checkout.work path
  gone : ∀ path, checkout.index path = none → checkout.head path ≠ none → home.work path = none
  beside : ∀ path, checkout.index path = none → checkout.head path = none →
    home.work path = before.work path

theorem Staged.agrees {before : Home} (h : Staged checkout before home)
    (hreads : Patch.Describes checkout.index checkout.tracked work.unstaged) :
    ∀ path, Patch.Touched work.unstaged path → home.work path = checkout.index path :=
  fun path htouched ↦ h.kept path (Or.inl (indexed_of_touched hreads htouched))

/-- After the staged patch the unstaged one is taken where it is not recognised. -/
theorem runApply_unstaged {before : Home}
    (hreads : Patch.Describes checkout.index checkout.tracked work.unstaged)
    (hstaged : Staged checkout before home)
    (htold : work.unstaged = [] ∨
      Patch.accepts checkout.index (Patch.reverse work.unstaged) = false) :
    ∃ after, runApply git home work.unstaged UNSTAGED = .ok after ∧
      Patched checkout before after := by
  have hagree := hstaged.agrees hreads
  have hsame (path : RelPath) (huntouched : ¬Patch.Touched work.unstaged path)
      (hindex : checkout.index path ≠ none) : checkout.index path = checkout.work path := by
    rw [← tracked_eq hindex]
    by_contra hne
    exact huntouched (hreads.covers path hne)
  have hbeside (path : RelPath) (hindex : checkout.index path = none) :
      ¬Patch.Touched work.unstaged path :=
    fun htouched ↦ indexed_of_touched hreads htouched hindex
  by_cases hnil : work.unstaged = []
  · have huntouched (path : RelPath) : ¬Patch.Touched work.unstaged path := by
      simp [Patch.Touched, hnil]
    refine ⟨home, by simp [runApply, hnil], hstaged.index, fun path hindex ↦ ?_,
      fun path hindex hhead ↦ ?_, hstaged.beside⟩
    · rw [hstaged.kept path (Or.inl hindex), hsame path (huntouched path) hindex]
    · rw [hstaged.kept path (Or.inr hhead), hindex]
  · have hrefused : reverses home work.unstaged UNSTAGED = false := by
      have hcongr := Patch.accepts_congr fun path
        (htouched : Patch.Touched (Patch.reverse work.unstaged) path) ↦ hagree path (Patch.touched_reverse.mp htouched)
      simpa [reverses, UNSTAGED, hcongr] using htold.resolve_left hnil
    have htakes : takes home work.unstaged UNSTAGED = true :=
      Patch.accepts_of_describes hreads hagree
    have hends (path : RelPath) :=
      @Patch.apply_of_describes _ _ _ _ _ home.work _ path git.elsewhere _ hreads hagree
    refine ⟨taken git home work.unstaged UNSTAGED, by simp [runApply, hnil, hrefused, htakes],
      hstaged.index, fun path hindex ↦ ?_, fun path hindex hhead ↦ ?_, fun path hindex hhead ↦ ?_⟩
    · by_cases htouched : Patch.Touched work.unstaged path
      · exact ((hends path).1 htouched).trans (tracked_eq hindex)
      · rw [← hsame path htouched hindex, ← hstaged.kept path (Or.inl hindex)]
        exact (hends path).2 htouched
    · rw [← hindex, ← hstaged.kept path (Or.inr hhead)]
      exact (hends path).2 (hbeside path hindex)
    · rw [← hstaged.beside path hindex hhead]
      exact (hends path).2 (hbeside path hindex)

/-! ### The copies over the patches -/

/-- What was untracked is copied beside the patches, and the work is carried. -/
theorem Patched.carried {before after : Home} (h : Patched checkout before home)
    (hlists : Lists checkout untracked) (hfree : Unobstructed checkout untracked before)
    (hplaced : placeAll io checkout.work home untracked = .ok after) :
    Carried checkout untracked after := by
  obtain ⟨hindex, hwork⟩ := placeAll_eq_ok hplaced
  refine ⟨hindex.trans h.index, fun path hpath ↦ ?_, fun path hpath ↦ ?_⟩
  · have hnot : path ∉ untracked := by
      intro hmem
      obtain ⟨hout, hthere⟩ := hlists path hmem
      rcases hpath with hin | ⟨_, hgone⟩
      · exact hin hout
      · exact hthere hgone
    rw [hwork path, if_neg hnot]
    by_cases hin : checkout.index path = none
    · obtain ⟨hhead, hgone⟩ := hpath.resolve_left fun hne ↦ hne hin
      rw [h.gone path hin hhead, hgone]
    · exact h.kept path hin
  · obtain ⟨hout, hthere⟩ := hlists path hpath
    rw [hwork path, if_pos hpath]
    refine sameBytes_placed hthere ?_
    by_cases hhead : checkout.head path = none
    · rw [h.beside path hout hhead]
      exact hfree.untracked path hpath
    · exact Or.inl (h.gone path hout hhead)

/-- A patch whose result is there is recognised. -/
theorem runApply_of_there {before after : Tree} {patch : Patch} {how : Application}
    (h : Patch.Describes before after patch)
    (hagree : ∀ path, Patch.Touched patch path →
      (if how.cached then home.index else home.work) path = after path) :
    runApply git home patch how = .ok home := by
  have hreverses : reverses home patch how = true :=
    Patch.accepts_of_describes h.reverse fun path htouched ↦
      hagree path (Patch.touched_reverse.mp htouched)
  unfold runApply
  simp only [hreverses, if_true, ite_self]

/-- Over a home the work is in already, reproducing it changes nothing. -/
theorem reproduce_again {before after : Home} (hreads : Reads checkout work)
    (h : Patched checkout before home) (hlists : Lists checkout work.untracked)
    (hfree : Unobstructed checkout work.untracked before)
    (hio : ∀ path ∈ work.untracked, io path = none)
    (hplaced : placeAll io checkout.work home work.untracked = .ok after) :
    reproduce git io work checkout.work after = .ok (after, work.report) := by
  have hcarried := h.carried hlists hfree hplaced
  have hcollisions : refuseCollisions work.untracked checkout.work after.work = .ok () :=
    refuseCollisions_eq_ok.mpr fun path hpath ↦ Or.inr (hcarried.untracked path hpath)
  have hstaged : runApply git after work.staged STAGED = .ok after :=
    runApply_of_there hreads.staged fun path _ ↦ congrFun hcarried.index path
  have hunstaged : runApply git after work.unstaged UNSTAGED = .ok after :=
    runApply_of_there hreads.unstaged fun path htouched ↦ by
      have hindex := indexed_of_touched hreads.unstaged htouched
      rw [tracked_eq hindex]
      exact hcarried.tracked path (Or.inl hindex)
  obtain ⟨again, (hagain : placeAll io checkout.work after _ = _)⟩ :=
    placeAll_runs hio fun path hpath ↦ (hlists path hpath).2
  have hsame : again = after := by
    obtain ⟨hindex, hwork⟩ := placeAll_eq_ok hagain
    obtain ⟨_, hbefore⟩ := placeAll_eq_ok hplaced
    have heq : again.work = after.work := by
      funext path
      rw [hwork path, hbefore path]
      split
      · rw [placed_placed]
      · rfl
    cases again
    cases after
    simp_all
  simp only [reproduce, hcollisions, hstaged, hunstaged, hagain, hsame, bind, Except.bind, pure,
    Except.pure]

/-- A reproduction that goes through went through each of its steps. -/
theorem reproduce_eq_ok {after : Home} {report : Report}
    (h : reproduce git io work source home = .ok (after, report)) :
    ∃ staged unstaged, runApply git home work.staged STAGED = .ok staged ∧
      runApply git staged work.unstaged UNSTAGED = .ok unstaged ∧
      placeAll io source unstaged work.untracked = .ok after := by
  obtain ⟨_, _, h⟩ := bind_eq_ok h
  obtain ⟨staged, hstaged, h⟩ := bind_eq_ok h
  obtain ⟨unstaged, hunstaged, h⟩ := bind_eq_ok h
  obtain ⟨placed, hplaced, h⟩ := bind_eq_ok h
  cases h
  exact ⟨staged, unstaged, hstaged, hunstaged, hplaced⟩

/-- The unstaged patch leaves the index alone. -/
theorem runApply_unstaged_index {patch : Patch} (h : runApply git home patch UNSTAGED = .ok home') :
    home'.index = home.index := by
  unfold runApply at h
  split at h
  · cases h
    rfl
  · split at h
    · cases h
      rfl
    · split at h
      · cases h
        rfl
      · cases h

/-! ### The carry -/

/-- A carry of work that is told from what is there reproduces it. -/
theorem reproduced_of_told (hreads : Reads checkout work) (hlists : Lists checkout work.untracked)
    (hclean : CleanAt home checkout.head) (hfree : Unobstructed checkout work.untracked home)
    (hio : ∀ path ∈ work.untracked, io path = none) (htold : Told checkout work) :
    Reproduced git io checkout work home := by
  obtain ⟨staged, (hrun : runApply git home _ _ = _), hstaged⟩ :=
    runApply_staged hreads.staged hclean hfree htold.1
  obtain ⟨patched, (hrun' : runApply git staged _ _ = _), hpatched⟩ :=
    runApply_unstaged hreads.unstaged hstaged htold.2
  obtain ⟨after, (hplaced : placeAll io checkout.work patched _ = _)⟩ :=
    placeAll_runs hio fun path hpath ↦ (hlists path hpath).2
  have hcollisions : refuseCollisions work.untracked checkout.work home.work = .ok () :=
    refuseCollisions_eq_ok.mpr hfree.untracked
  refine ⟨after, work.report, ?_, hpatched.carried hlists hfree hplaced,
    reproduce_again hreads hpatched hlists hfree hio hplaced⟩
  simp only [reproduce, hcollisions, hrun, hrun', hplaced, bind, Except.bind, pure, Except.pure]

/-- A carry that reproduced the work took each patch for what it was. -/
theorem told_of_reproduced (hreads : Reads checkout work) (hlists : Lists checkout work.untracked)
    (hclean : CleanAt home checkout.head) (hfree : Unobstructed checkout work.untracked home)
    (h : Reproduced git io checkout work home) : Told checkout work := by
  obtain ⟨after, report, hrun, hcarried, _⟩ := h
  obtain ⟨staged, unstaged, hstaged, hunstaged, hplaced⟩ := reproduce_eq_ok hrun
  obtain ⟨hindex, hwork⟩ := placeAll_eq_ok hplaced
  have htold : work.staged = [] ∨
      Patch.accepts checkout.head (Patch.reverse work.staged) = false := by
    by_contra hnot
    obtain ⟨hne, htaken⟩ := not_or.mp hnot
    -- The index is left at what `HEAD` has, which is not what the checkout staged.
    have hskipped : staged = home := by
      have hreverses : reverses home work.staged STAGED = true := by
        simpa [reverses, STAGED, hclean.index] using htaken
      rw [runApply, if_neg hne, if_pos hreverses] at hstaged
      exact (Except.ok.inj hstaged).symm
    apply hreads.staged.changes hne
    calc checkout.head = staged.index := by rw [hskipped, hclean.index]
      _ = unstaged.index := (runApply_unstaged_index hunstaged).symm
      _ = after.index := hindex.symm
      _ = checkout.index := hcarried.index
  refine ⟨htold, ?_⟩
  by_contra hnot
  obtain ⟨hne, htaken⟩ := not_or.mp hnot
  obtain ⟨staged', (hstaged' : runApply git home _ _ = _), hafter⟩ :=
    runApply_staged hreads.staged hclean hfree htold
  obtain rfl : staged = staged' := Except.ok.inj (hstaged.symm.trans hstaged')
  -- Every tracked path is left at what the index has.
  have hskipped : unstaged = staged := by
    have hcongr := Patch.accepts_congr fun path
      (htouched : Patch.Touched (Patch.reverse work.unstaged) path) ↦ hafter.agrees hreads.unstaged path (Patch.touched_reverse.mp htouched)
    have hreverses : reverses staged work.unstaged UNSTAGED = true := by
      simpa [reverses, UNSTAGED, hcongr] using htaken
    rw [runApply, if_neg hne, if_pos hreverses] at hunstaged
    exact (Except.ok.inj hunstaged).symm
  apply hreads.unstaged.changes hne
  funext path
  by_cases hin : checkout.index path = none
  · simp [Checkout.tracked, hin]
  · have hnot : path ∉ work.untracked := fun hmem ↦ hin (hlists path hmem).1
    calc checkout.index path = staged.work path := (hafter.kept path (Or.inl hin)).symm
      _ = after.work path := by rw [hwork path, if_neg hnot, hskipped]
      _ = checkout.work path := hcarried.tracked path (Or.inl hin)
      _ = checkout.tracked path := (tracked_eq hin).symm

/-- What is relied on of Git for one checkout: it prints the differences there are, and lists as
untracked what is there and not in the index. -/
structure Observed (git : Git) (checkout : Checkout) : Prop where
  staged : Patch.Describes checkout.head checkout.index (git.diff checkout.head checkout.index)
  unstaged : Patch.Describes checkout.index checkout.tracked
    (git.diff checkout.index checkout.tracked)
  untracked : Lists checkout (untrackedIn checkout)

/-- A tree of one file. -/
def logged (lines : List String) : Tree := fun path ↦
  if path = ["log"] then some ⟨.regular, lines⟩ else none

/-- The patch of an edit of that file. -/
def edit (hunk : Foundation.Patch.Hunk String) : Patch :=
  [⟨some (["log"], .regular), some (["log"], .regular), [hunk]⟩]

/-- A checkout with an edit of its one file staged, and a file beside it that Git does not track. -/
def edited (before after : List String) : Checkout where
  position := some ("main", "c0")
  head := logged before
  index := logged after
  work := fun path ↦ if path = ["notes"] then some ⟨.regular, ["n"]⟩ else logged after path
  entries := [⟨["log"], .tracked .modified .unmodified, .no⟩, ⟨["notes"], .untracked, .no⟩]
  unmerged := []
  lstat := fun _ ↦ some .file
  length := fun _ ↦ 8

/-- A Git that prints one stretch where the file differs. -/
def printing (hunk : Foundation.Patch.Hunk String) : Git where
  diff := fun before after ↦ if before ["log"] = after ["log"] then [] else edit hunk
  bytes := fun _ ↦ 64
  elsewhere := fun _ lines ↦ lines

/-- A stretch that turns the one text into the other and back is the difference. -/
theorem describes_edit {before after : List String} {hunk : Foundation.Patch.Hunk String}
    (hne : before ≠ after) (hturns : Patch.splice 0 [hunk] before = some after)
    (hback : Patch.splice 0 [hunk.swap] after = some before) :
    Patch.Describes (logged before) (logged after) (edit hunk) where
  old := by simp [edit, logged]
  new := by simp [edit, logged]
  turns := by simpa [edit, logged, Patch.textOf] using hturns
  turnsBack := by simpa [edit, logged, Patch.textOf] using hback
  oldOnce := by simp +contextual [edit]
  newOnce := by simp +contextual [edit]
  leaves := by simp [edit, Foundation.Patch.Change.oldPath, Foundation.Patch.Change.newPath]
  starts := by simp [edit, Foundation.Patch.Change.oldPath, Foundation.Patch.Change.newPath]
  covers := by
    intro path hdiffers
    by_cases hpath : path = ["log"]
    · exact ⟨_, List.mem_singleton.mpr rfl, Or.inl (by simp [Foundation.Patch.Change.oldPath, hpath])⟩
    · exact absurd (by simp [logged, hpath]) hdiffers
  changes := fun _ heq ↦ hne (by simpa [logged] using congrFun heq ["log"])

/-- Nothing differs from itself. -/
theorem describes_nil (tree : Tree) : Patch.Describes tree tree [] where
  old := by simp
  new := by simp
  turns := by simp
  turnsBack := by simp
  oldOnce := by simp
  newOnce := by simp
  leaves := by simp
  starts := by simp
  covers := fun _ hdiffers ↦ absurd rfl hdiffers
  changes := fun hne ↦ absurd rfl hne

theorem tracked_edited (before after : List String) :
    (edited before after).tracked = (edited before after).index := by
  funext path
  by_cases hpath : path = ["log"]
  · simp [Checkout.tracked, edited, logged, hpath]
  · simp [Checkout.tracked, edited, logged, hpath]

theorem observed_edited {before after : List String} {hunk : Foundation.Patch.Hunk String}
    (hne : before ≠ after) (hturns : Patch.splice 0 [hunk] before = some after)
    (hback : Patch.splice 0 [hunk.swap] after = some before) :
    Observed (printing hunk) (edited before after) where
  staged := by
    have hprinted : (printing hunk).diff (edited before after).head (edited before after).index =
        edit hunk := by
      simp [printing, edited, logged, hne]
    exact hprinted ▸ describes_edit hne hturns hback
  unstaged := by
    rw [tracked_edited]
    have hprinted : (printing hunk).diff (edited before after).index (edited before after).index =
        [] := by
      simp [printing]
    exact hprinted ▸ describes_nil _
  untracked := by simp [Lists, untrackedIn, edited, logged]

/-- What the reading of the edited checkout holds. -/
def editedWork (hunk : Foundation.Patch.Hunk String) : Work :=
  ⟨"c0", edit hunk, [], [["notes"]], ⟨1, 0, 1, 2, 136⟩⟩

/-- A home on the commit before the edit. -/
def pristine (before : List String) : Home := ⟨logged before, logged before⟩

theorem cleanAt_pristine (before after : List String) :
    CleanAt (pristine before) (edited before after).head :=
  ⟨rfl, fun _ _ ↦ rfl⟩

theorem unobstructed_pristine (before after : List String) :
    Unobstructed (edited before after) [["notes"]] (pristine before) where
  tracked := by simp +contextual [edited, pristine]
  untracked := by simp [pristine, logged]

end Nodal.Carry
