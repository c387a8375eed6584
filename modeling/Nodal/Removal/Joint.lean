import Nodal.Removal.Readings

/-!
# Several homes removed by one command

`kernel.rs` and `ops/reclaim.rs`: one command may take several homes, and a copy that lives in
another of them does not count. Each home is read as it is read alone, each of its commits is put
down to the first store that vouches for it, and the joint question is whether that one store is a
member of the set.

What is lost with a set is what no store outside it still has: every store whose own refs reach the
commit and that would pass the reading is a member, or a worktree linked to one. The two questions
are not one, and where they part is said here exactly.
-/

set_option autoImplicit false

namespace Nodal.Removal

open Git Foundation.Ancestry Foundation.Credit

/-! ### What is reported -/

/-- A removal of the set refuses over a commit: it is in a part that refuses on its own, or in one
whose store goes with the set. -/
def Refused (disk : Disk) (set : List Path) (parts : List (Copies × List Oid)) (commit : Oid) :
    Prop :=
  ∃ part ∈ parts, commit ∈ part.2 ∧ (part.1.needs ≠ none ∨
    ∃ heldBy, part.1 = .secondLocalCopy heldBy ∧ survives disk heldBy set = false)

/-! ### What is lost -/

/-- A store would vouch for a commit: its own refs reach it, and it passes the reading. -/
def vouchesFor (disk : Disk) (home : Path) (commit : Oid) (store : Path × Role) : Bool :=
  commit ∈ (ask disk home store [commit]).vouches

/-- Whether a removal of the set takes a store's objects: it is a member, or a worktree of one. -/
def goes (disk : Disk) (set : List Path) (store : Path) : Bool :=
  !survives disk store set || set.any fun member ↦ disk.ordinary member &&
    (disk.commonDir member).any fun common ↦
      (disk.commonDir store).any (disk.resolve · = disk.resolve common)

/-- No store outside the set still has the commit. -/
def LostWith (disk : Disk) (input : Input) (set : List Path) (commit : Oid) : Prop :=
  ∀ store ∈ stores input.checkout input.siblings,
    vouchesFor disk input.home commit store = true → goes disk set store.1 = true

instance {disk : Disk} {input : Input} {set : List Path} {commit : Oid} :
    Decidable (LostWith disk input set commit) :=
  inferInstanceAs (Decidable (∀ store ∈ stores input.checkout input.siblings, _ → _))

/-- What each store answers about a commit does not turn on which others it is asked about. -/
def SteadyFor (disk : Disk) (input : Input) (unproved : List Oid) (commit : Oid) : Prop :=
  ∀ store ∈ stores input.checkout input.siblings, ∀ turn, turn.Sublist unproved → commit ∈ turn →
    (commit ∈ (ask disk input.home store turn).vouches ↔
      vouchesFor disk input.home commit store = true)

variable {disk : Disk} {input : Input} {set : List Path} {commit : Oid} {unproved : List Oid}

/-- The kernel refuses over a group exactly when a removal refuses over one of the commits it is
made of. -/
theorem refused_iff_group {assessment : Assessment} :
    (∃ commit, Refused disk set assessment.history.parts commit) ↔
      ∃ group ∈ assessment.commits, group.copies.needs ≠ none ∨
        (jointLoss disk set group).isSome = true := by
  have hjoint {group : CommitGroup} : (jointLoss disk set group).isSome = true ↔
      ∃ heldBy, group.copies = .secondLocalCopy heldBy ∧ survives disk heldBy set = false := by
    rw [← Option.ne_none_iff_isSome, ne_eq, jointLoss_eq_none]
    simp
  simp only [hjoint]
  exact (exists_group_iff fun copies ↦ copies.needs ≠ none ∨
    ∃ heldBy, copies = .secondLocalCopy heldBy ∧ survives disk heldBy set = false).symm

/-! ### Where a commit is put down -/

/-- A part of the stores' answers refuses over a commit that no store took, or over one whose store
goes.

Assumes: the commit is one the stores were asked about, and each answers for it alone. -/
theorem refused_refusing_iff {witness : Witness} (hsteady : SteadyFor disk input unproved commit)
    (hnodup : unproved.Nodup) (hcommit : commit ∈ unproved) :
    Refused disk set (refusing witness (input.copies disk unproved)) commit ↔
      ∀ first, (stores input.checkout input.siblings).find?
        (vouchesFor disk input.home commit) = some first → survives disk first.1 set = false := by
  have hfirst {store : Path × Role} :
      (∃ credit ∈ (settle (ask disk input.home) (stores input.checkout input.siblings)
        unproved).held, credit.1 = store ∧ commit ∈ credit.2) ↔
          (stores input.checkout input.siblings).find? (vouchesFor disk input.home commit) =
            some store := credited_first hsteady (List.Sublist.refl _) hcommit
  constructor
  · rintro ⟨part, hpart, hmem, hrefuses⟩ first hfind
    simp only [refusing, List.mem_append, List.mem_map, List.mem_cons, List.not_mem_nil,
      or_false] at hpart
    have hnot : commit ∉ (settle (ask disk input.home) (stores input.checkout input.siblings)
        unproved).left := by
      obtain ⟨credit, hcredit, _, hcredited⟩ := hfirst.mpr hfind
      exact not_left_of_credited hnodup hcredit hcredited
    rcases hpart with ⟨held, hheld, rfl⟩ | rfl | rfl
    · obtain ⟨credit, hcredit, rfl⟩ := List.mem_map.mp hheld
      have hsame : credit.1 = first :=
        Option.some.inj ((hfirst.mp ⟨credit, hcredit, rfl, hmem⟩).symm.trans hfind)
      rcases hrefuses with hneeds | ⟨heldBy, hcopies, hsurvives⟩
      · exact absurd rfl hneeds
      · obtain rfl := Copies.secondLocalCopy.inj hcopies
        rw [← hsame]
        exact hsurvives
    · exact absurd (List.mem_filter.mp hmem).1 hnot
    · exact absurd (List.mem_filter.mp hmem).1 hnot
  · intro hgoes
    rcases mem_copies hcommit with ⟨held, hheld, hcredited⟩ | hunchecked | honly
    · refine ⟨(.secondLocalCopy held.1, held.2), ?_, hcredited, Or.inr ⟨held.1, rfl, ?_⟩⟩
      · exact List.mem_append_left _ (List.mem_map_of_mem hheld)
      · obtain ⟨credit, hcredit, rfl⟩ := List.mem_map.mp hheld
        exact hgoes credit.1 (hfirst.mp ⟨credit, hcredit, rfl, hcredited⟩)
    · exact ⟨_, List.mem_append_right _ List.mem_cons_self, hunchecked,
        Or.inl (by simp [unchecked, Copies.needs])⟩
    · exact ⟨_, List.mem_append_right _ (List.mem_cons_of_mem _ List.mem_cons_self), honly,
        Or.inl (by unfold unreached; split <;> simp [Copies.needs])⟩

/-- A removal refuses over a commit that nothing else proved exactly when no store took it, or the
one it was put down to goes; over every other commit it refuses nothing.

Assumes: the history was read, and each store answers for the commit alone. -/
theorem refused_iff {found : History} {refs : List Ref} (hfound : history disk input = .ok found)
    (hrefs : disk.allRefs input.home = .ok refs)
    (hunproved : disk.among input.home (input.tips disk refs) (input.outside disk refs).tips =
      .ok unproved) (hsteady : SteadyFor disk input unproved commit) :
    Refused disk set found.parts commit ↔ commit ∈ unproved ∧
      ∀ first, (stores input.checkout input.siblings).find?
        (vouchesFor disk input.home commit) = some first → survives disk first.1 set = false := by
  have hparts : Refused disk set found.parts commit ↔
      Refused disk set (refusing (Witness.of found.remotes (input.outside disk refs))
        (input.copies disk unproved)) commit := by
    refine exists_congr fun part ↦ and_congr_left fun ⟨hmem, hrefuses⟩ ↦ ?_
    refine mem_parts_iff hfound hrefs hunproved (List.ne_nil_of_mem hmem) fun witness hproved ↦ ?_
    simp [hproved, Copies.needs] at hrefuses
  rw [hparts]
  constructor
  · intro hrefused
    have hcommit : commit ∈ unproved := by
      obtain ⟨part, hpart, hmem, _⟩ := hrefused
      exact refusing_perm.mem_iff.mp (List.mem_flatMap.mpr ⟨part, hpart, hmem⟩)
    exact ⟨hcommit, (refused_refusing_iff hsteady (Disk.among_nodup hunproved) hcommit).mp hrefused⟩
  · rintro ⟨hcommit, hgoes⟩
    exact (refused_refusing_iff hsteady (Disk.among_nodup hunproved) hcommit).mpr hgoes

/-! ### Where the two questions part -/

/-- What is refused is what is lost, unless the store a commit is put down to is a member of the set
and another outside it has the commit, or is no member and only a worktree of one.

Assumes: the history was read, and each store answers for the commit alone. -/
theorem refused_iff_lost_iff (set : List Path) {found : History} {refs : List Ref}
    (hfound : history disk input = .ok found) (hrefs : disk.allRefs input.home = .ok refs)
    (hunproved : disk.among input.home (input.tips disk refs) (input.outside disk refs).tips =
      .ok unproved) (hsteady : SteadyFor disk input unproved commit) :
    (commit ∉ unproved → ¬Refused disk set found.parts commit) ∧
      (commit ∈ unproved →
        ((Refused disk set found.parts commit ↔ LostWith disk input set commit) ↔
          ∀ first, (stores input.checkout input.siblings).find?
              (vouchesFor disk input.home commit) = some first →
            (survives disk first.1 set = false →
              ∀ other ∈ stores input.checkout input.siblings,
                vouchesFor disk input.home commit other = true → goes disk set other.1 = true) ∧
            (survives disk first.1 set = true →
              ∃ other ∈ stores input.checkout input.siblings,
                vouchesFor disk input.home commit other = true ∧ goes disk set other.1 = false))) := by
  have hrefused : Refused disk set found.parts commit ↔ commit ∈ unproved ∧
      ∀ first, (stores input.checkout input.siblings).find?
        (vouchesFor disk input.home commit) = some first → survives disk first.1 set = false :=
    refused_iff hfound hrefs hunproved hsteady
  refine ⟨fun hproved h ↦ hproved (hrefused.mp h).1, fun hcommit ↦ ?_⟩
  rw [hrefused, and_iff_right hcommit]
  cases hfind : (stores input.checkout input.siblings).find?
      (vouchesFor disk input.home commit) with
  | none =>
    have hlost : LostWith disk input set commit := fun store hstore hvouches ↦
      absurd hvouches (List.find?_eq_none.mp hfind store hstore)
    simp [hlost]
  | some first =>
    cases hsurvives : survives disk first.1 set with
    | false => simp [LostWith, hsurvives]
    | true => simp [LostWith, hsurvives]

/-! ### Three homes with one commit -/

private def besideTwo : Input :=
  { Input.refusal "/home" none ["/first", "/second"] with dispositions := true }

private theorem steady_sameCommit {homes : List Path} :
    SteadyFor (sameCommit homes) besideTwo [⟨1⟩] ⟨1⟩ := by
  intro store _ turn hturn hcommit
  obtain rfl : turn = [⟨1⟩] := by
    rcases List.sublist_singleton.mp hturn with rfl | rfl
    · cases hcommit
    · rfl
  simp [vouchesFor]

theorem refused_iff_lost_iff_pair : ∃ found : History,
    (Refused (sameCommit ["/home", "/first"]) ["/home", "/first"] found.parts ⟨1⟩ ↔
      LostWith (sameCommit ["/home", "/first"]) besideTwo ["/home", "/first"] ⟨1⟩) := by
  have hanswers : (history (sameCommit ["/home", "/first"]) besideTwo).toOption.any
      (fun _ ↦ true) = true := by decide +kernel
  obtain ⟨found, hfound, _⟩ := answered_of_any hanswers
  have hrefs : (sameCommit ["/home", "/first"]).allRefs besideTwo.home =
      .ok [⟨["refs", "heads", "topic"], ⟨1⟩⟩] := rfl
  have hunproved : (sameCommit ["/home", "/first"]).among besideTwo.home
      (besideTwo.tips (sameCommit ["/home", "/first"]) [⟨["refs", "heads", "topic"], ⟨1⟩⟩])
      (besideTwo.outside (sameCommit ["/home", "/first"]) [⟨["refs", "heads", "topic"], ⟨1⟩⟩]).tips =
        .ok [⟨1⟩] := by decide +kernel
  have hiff := (refused_iff_lost_iff ["/home", "/first"] hfound hrefs hunproved
    steady_sameCommit).2 (by decide)
  refine ⟨found, hiff.mpr fun first hfind ↦ ?_⟩
  have hfirst : (stores besideTwo.checkout besideTwo.siblings).find?
      (vouchesFor (sameCommit ["/home", "/first"]) besideTwo.home ⟨1⟩) =
        some ("/first", .sibling) := by decide +kernel
  obtain rfl := Option.some.inj (hfirst.symm.trans hfind)
  exact ⟨fun _ ↦ by decide +kernel, fun hsurvives ↦ absurd hsurvives (by decide +kernel)⟩

theorem refused_and_kept : ∃ assessment,
    assess (sameCommit ["/home", "/first", "/second"]) besideTwo = .ok assessment ∧
      (assessment.verdict (sameCommit ["/home", "/first", "/second"]) ["/home", "/first"] 0).lost =
        [⟨.uniqueLoss,
          "1 commit whose only other copy is in /first, which the same removal takes"⟩] ∧
      Refused (sameCommit ["/home", "/first", "/second"]) ["/home", "/first"]
        assessment.history.parts ⟨1⟩ ∧
      ¬LostWith (sameCommit ["/home", "/first", "/second"]) besideTwo ["/home", "/first"] ⟨1⟩ := by
  have hanswers : (assess (sameCommit ["/home", "/first", "/second"]) besideTwo).toOption.any
      (fun assessment ↦ (assessment.verdict (sameCommit ["/home", "/first", "/second"])
        ["/home", "/first"] 0).lost = [⟨.uniqueLoss,
          "1 commit whose only other copy is in /first, which the same removal takes"⟩] ∧
        (.secondLocalCopy "/first", [⟨1⟩]) ∈ assessment.history.parts) = true := by decide +kernel
  obtain ⟨assessment, hassess, hlost⟩ := answered_of_any hanswers
  obtain ⟨hlost, hpart⟩ := of_decide_eq_true hlost
  exact ⟨assessment, hassess, hlost, ⟨_, hpart, List.mem_cons_self,
    Or.inr ⟨"/first", rfl, by decide +kernel⟩⟩, by decide +kernel⟩

end Nodal.Removal
